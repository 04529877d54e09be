import PocketCalc.Settings
import PocketCalc.Text.Blank
import PocketCalc.Yaml.Document

/-!
# Settings files

A settings file is a YAML mapping with the keys `mode`, `angle_unit`, `max_digits`
and `format`, each of which may be missing; under `format` stand `width`, `decimals`
and `exponent_digits`. A known key may stand once, any other is passed over, and a
blank file leaves everything at its default.

* `unsigned?` — whole numbers, in decimal or behind `0x`, `0o` or `0b`.
* `Settings.ofFile?` — the settings in a file.
-/

namespace PocketCalc

open Yaml

/-! ## Numbers -/

/-- The number that digits of a base spell, at least one of them. -/
def digitsIn? (base : Nat) (digits : List Char) : Option Nat :=
  if digits = [] then none
  else digits.foldlM (fun n c => do
    let d ← digitValue? c
    if d < base then some (base * n + d) else none) 0

/-- A whole number below a bound, with an optional plus sign. Decimal digits behind a
leading zero do not spell a number. -/
def unsigned? (bound : Nat) (text : List Char) : Option Nat := do
  let body := if text.head? = some '+' then text.tail else text
  let n ←
    match body with
    | '0' :: 'x' :: digits => digitsIn? 16 digits
    | '0' :: 'o' :: digits => digitsIn? 8 digits
    | '0' :: 'b' :: digits => digitsIn? 2 digits
    | ['0'] => some 0
    | '0' :: _ => none
    | digits => digitsIn? 10 digits
  if n < bound then some n else none

/-! ## Parts of a node -/

/-- Nothing, or a word for it. -/
def isNothing (text : List Char) : Bool :=
  ["", "~", "null", "Null", "NULL"].contains (String.ofList text)

/-- The tag of a kind of scalar that is known everywhere. -/
def coreTag (kind : String) : Octets :=
  octets ("tag:yaml.org,2002:" ++ kind)

namespace Yaml

/-- The name behind the exclamation mark of a tag, which is the mark itself if nothing
stands behind it. -/
def Properties.tagName? (p : Properties) : Option String :=
  match p.tag with
  | some (33 :: name) => String.fromUTF8? ⟨(if name = [] then [33] else name).toArray⟩
  | _ => none

namespace Node

/-- The text of a scalar. -/
def text? : Node → Option (List Char)
  | scalar _ _ text => some text
  | _ => none

/-- The name of one of several choices: the text of a scalar in any style, or the name
in a tag in front of nothing. -/
def choice? {α : Type} (ofName? : String → Option α) : Node → Option α
  | scalar p style text =>
    match p.tagName? with
    | some name => if style = .plain ∧ isNothing text then ofName? name else none
    | none => ofName? (String.ofList text)
  | _ => none

/-- A whole number below a bound: without quotes, or line by line with the tag of a
whole number. -/
def nat? (bound : Nat) : Node → Option Nat
  | scalar p style text =>
    if style = .plain ∨ (style = .literal ∧ p.tag = some (coreTag "int")) then unsigned? bound text
    else none
  | _ => none

end Node

/-- The entries of a mapping in a document, whose keys are scalars. Nothing at all
counts as a mapping without entries. -/
def Document.entries? (d : Document) : Node → Option (List (List Char × Node))
  | .mapping _ entries => entries.mapM fun (key, value) => do
    return (← (← d.resolve? key).text?, ← d.resolve? value)
  | .scalar _ .plain [] => some []
  | _ => none

end Yaml

/-! ## Settings -/

/-- The value of a field: the default if its key is missing. A key that stands twice
is refused. -/
def field? {α : Type} (entries : List (List Char × Node)) (name : String) (default : α)
    (read : Node → Option α) : Option α :=
  match entries.filter fun entry => entry.1 == name.toList with
  | [] => some default
  | [(_, value)] => read value
  | _ => none

/-- The number format that a node of a document describes. -/
def NumberFormat.ofNode? (d : Document) (n : Node) : Option NumberFormat := do
  let entries ← d.entries? n
  return {
    width := ← field? entries "width" 12 (Node.nat? (Nat.pow 2 64))
    decimals := ← field? entries "decimals" 9 fun n => (n.nat? (Nat.pow 2 32)).map Nat.toUInt32
    exponentDigits := ← field? entries "exponent_digits" 5 (Node.nat? (Nat.pow 2 64)) }

/-- The digit limit that a node describes: none if it says nothing, without quotes.
Behind a tag only the word for nothing says so, and only behind that of nothing. -/
def digitLimit? (n : Node) : Option (Option Nat) :=
  let limit := (n.nat? (Nat.pow 2 64)).map some
  match n with
  | .scalar p .plain text =>
    if p.tag = some (coreTag "null") then if text ≠ [] ∧ isNothing text then some none else none
    else if p.tag = none ∧ isNothing text then some none
    else limit
  | _ => limit

namespace Settings

/-- The settings that a document describes. -/
def ofDocument? (d : Document) : Option Settings := do
  let entries ← d.entries? d.root
  return {
    mode := ← field? entries "mode" .scientific (Node.choice? Mode.ofName?)
    angleUnit := ← field? entries "angle_unit" .radians (Node.choice? AngleUnit.ofName?)
    maxDigits := ← field? entries "max_digits" none digitLimit?
    format := ← field? entries "format" {} (NumberFormat.ofNode? d) }

def ofFile? (text : List Char) : Option Settings :=
  if (Text.trim text).isEmpty then some {} else (Document.ofText? text).bind ofDocument?

end Settings

end PocketCalc
