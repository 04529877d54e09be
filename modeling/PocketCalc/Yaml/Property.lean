import PocketCalc.Yaml.Scalar

/-!
# Anchors, tags and directives

In front of a node may stand an anchor, by which other places name the node, and a
tag, which says what kind of thing it is. A tag begins with a handle that stands for a
prefix; a directive in front of the document sets the prefix of a handle, another one
the version.

* `anchorName?` — the name of an anchor.
* `TagName` — a tag as it is written, and `tagName?` which reads it.
* `Directive` — what a line with a percent sign says, and `directive?` which reads it.
-/

namespace PocketCalc.Yaml

/-! ## Anchors -/

/-- The name of an anchor, from behind its mark on. -/
def anchorName? (s : List Spot) : Option Taken :=
  let (name, rest) := span isWord s
  let isOver := atGap rest || atChar ['?', ':', ',', ']', '\x7d', '%', '@', '\x60'].contains rest
  if name ≠ [] ∧ isOver then some (name, rest) else none

/-! ## Octets -/

/-- Octets, which spell a tag in UTF-8. -/
abbrev Octets := List UInt8

/-- The octets of a text. -/
def octets (text : String) : Octets :=
  text.toUTF8.toList

/-- A character of a tag that stands for itself; between angle brackets these are some
more. -/
def isTagChar (verbatim : Bool) (c : Char) : Bool :=
  isWord c
    || [';', '/', '?', ':', '@', '&', '=', '+', '$', '.', '!', '~', '*', '\'', '(', ')'].contains c
    || (verbatim && [',', '[', ']'].contains c)

/-- How many octets are still to come after the next octet of a character. -/
def pendingAfter? (pending octet : Nat) : Option Nat :=
  if pending ≠ 0 then if octet / 64 = 2 then some (pending - 1) else none
  else if octet < 128 then some 0
  else if octet / 32 = 6 then some 1
  else if octet / 16 = 14 then some 2
  else if octet / 8 = 30 then some 3
  else none

/-- The octets that a part of a tag spells. Behind a percent sign an octet is spelt by
two hexadecimal digits; the octets of one character are spelt in a row. -/
def tagOctets? (verbatim : Bool) (pending : Nat) : List Spot → Option (Octets × List Spot)
  | [] => if pending = 0 then some ([], []) else none
  | s :: rest =>
    if s.char = '%' then
      match rest with
      | high :: low :: rest => do
        let octet := 16 * (← digitValue? high.char) + (← digitValue? low.char)
        let (more, rest) ← tagOctets? verbatim (← pendingAfter? pending octet) rest
        return (octet.toUInt8 :: more, rest)
      | _ => none
    else if pending ≠ 0 then none
    else if isTagChar verbatim s.char then
      (tagOctets? verbatim 0 rest).map fun (more, rest) => (s.char.toNat.toUInt8 :: more, rest)
    else some ([], s :: rest)

/-- Octets up to one that is zero, which ends a tag. -/
def upToZero (o : Octets) : Octets :=
  o.takeWhile (· ≠ 0)

/-- A part of a tag of at least one octet. -/
def tagPart? (verbatim : Bool) (s : List Spot) : Option (Octets × List Spot) := do
  let (part, rest) ← tagOctets? verbatim 0 s
  if part = [] then none else some (upToZero part, rest)

/-! ## Tags -/

/-- A tag as it is written: a handle, if there is one, and what stands behind it. -/
structure TagName where
  handle : List Char
  suffix : Octets
  deriving DecidableEq, Repr

/-- A handle, from its first exclamation mark on, which ends with another one. -/
def handle? : List Spot → Option Taken
  | [] => none
  | s :: rest =>
    let (name, rest) := span isWord rest
    if s.char = '!' ∧ atChar (· == '!') rest then some ('!' :: name ++ ['!'], rest.tail) else none

/-- A tag between angle brackets. -/
def verbatimTag? (s : List Spot) : Option (TagName × List Spot) := do
  let (suffix, rest) ← tagPart? true s
  if atChar (· == '>') rest then some (⟨[], suffix⟩, rest.tail) else none

/-- A tag with a handle of its own, or behind one exclamation mark, which may stand
alone. -/
def shortTag? (s : List Spot) : Option (TagName × List Spot) :=
  match handle? s with
  | some (handle, rest) => do
    let (suffix, rest) ← tagPart? false rest
    return (⟨handle, suffix⟩, rest)
  | none => do
    let (suffix, rest) ← tagOctets? false 0 s.tail
    return (if upToZero suffix = [] then ⟨[], octets "!"⟩ else ⟨['!'], upToZero suffix⟩, rest)

/-- A tag, from its exclamation mark on. -/
def tagName? (bracketed : Bool) (s : List Spot) : Option (TagName × List Spot) := do
  let (tag, rest) ← if atChar (· == '<') s.tail then verbatimTag? s.tail.tail else shortTag? s
  if atGap rest || (bracketed && atChar (· == ',') rest) then some (tag, rest) else none

/-! ## Directives -/

/-- What a line with a percent sign says. -/
inductive Directive where
  | version (major minor : Nat)
  | handle (name : List Char) (tagPrefix : Octets)
  deriving DecidableEq, Repr

/-- A number of at most nine decimal digits. -/
def shortNumber? (s : List Spot) : Option (Nat × List Spot) :=
  let (digits, rest) := span Char.isDigit s
  if digits ≠ [] ∧ digits.length ≤ 9 then
    some (digits.foldl (fun n c => 10 * n + (c.toNat - 48)) 0, rest)
  else none

/-- The version that a directive states. -/
def version? (s : List Spot) : Option (Directive × List Spot) := do
  let (major, rest) ← shortNumber? s
  if !atChar (· == '.') rest then none
  let (minor, rest) ← shortNumber? rest.tail
  return (.version major minor, rest)

/-- The prefix that a directive gives to a handle; a lone exclamation mark is a
handle too. -/
def handlePrefix? (s : List Spot) : Option (Directive × List Spot) := do
  let (name, rest) ←
    match handle? s with
    | some found => some found
    | none => if atChar (· == '!') s then some (['!'], s.tail) else none
  if !atChar isGap rest then none
  let (tagPrefix, rest) ← tagPart? true (skipGap rest)
  if atGap rest then some (.handle name tagPrefix, rest) else none

/-- A directive, from behind its percent sign on; a comment may follow it. -/
def directive? (s : List Spot) : Option (Directive × List Spot) := do
  let (name, rest) := span isWord s
  if !atGap rest then none
  let (directive, rest) ←
    match String.ofList name with
    | "YAML" => version? (skipGap rest)
    | "TAG" => handlePrefix? (skipGap rest)
    | _ => none
  return (directive, ← nextLine? rest)

end PocketCalc.Yaml
