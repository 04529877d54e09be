import PocketCalc.Encoding
import PocketCalc.Style

/-!
# Terminal output

Display lines, status lines, keypad tables and notices, with or without colour. How a style
looks on the terminal and how a JSON value is written are left to a painter and a writer, which
a printer is given.

* `Printer.new` — the printer with the escape sequences of `Style.paint` and compact JSON.
* `Printer.render` — a display as its main line, or as JSON.
* `Printer.status` — mode, angle unit and last expression.
* `Printer.table` — a keypad as a grid of labelled buttons.
* `Printer.notice` — a message beside the output.
-/

namespace PocketCalc

structure Printer where
  useColor : Bool
  /-- Displays are printed as JSON. -/
  json : Bool
  /-- The text in a style. -/
  painter : Style → List Char → List Char
  /-- The text of a JSON value. -/
  writer : Json → List Char

def Printer.new (useColor json : Bool) : Printer :=
  ⟨useColor, json, Style.paint, Json.compact⟩

/-! ## Styles -/

def TokenKind.style : TokenKind → Style
  | number => .plain
  | operator => { color := some .cyan }
  | function => { color := some .magenta }
  | constant => { color := some .yellow }
  | paren => { dim := true }

def Event.buttonStyle : Event → Style
  | equals => { color := some .green, bold := true }
  | clear | backspace => { color := some .red }
  | digit _ => { bold := true }
  | _ => { color := some .cyan }

/-- The style of the number being typed: a zero divisor stands out. -/
def Display.pendingStyle (d : Display) : Style :=
  if d.divisionWarning then { color := some .yellow, underlined := true } else { bold := true }

namespace Printer

/-- Text in a style, where colours are used. -/
def paint (p : Printer) (text : List Char) (style : Style) : List Char :=
  if p.useColor then p.painter style text else text

/-! ## Displays -/

/-- The main line with the style of each of its parts. -/
def styledLine (p : Printer) (d : Display) : List Char :=
  if d.isError then p.paint errorText { color := some .red, bold := true }
  else if d.isResult then p.paint d.line { color := some .green, bold := true }
  else if d.tokens.isEmpty && d.pending.isEmpty then p.paint ['0'] { dim := true }
  else
    (d.tokens.flatMap fun t => p.paint t.spaced t.kind.style) ++ p.paint d.pending d.pendingStyle

def render (p : Printer) (d : Display) : List Char :=
  if p.json then p.writer d.toJson
  else if p.useColor then p.styledLine d
  else d.line

/-- The status line: the mode, its angle unit, and the last expression. -/
def status (p : Printer) (d : Display) : List Char :=
  let unit := if d.mode.hasAngleUnit then ' ' :: d.angleUnit.label.toList else []
  let preview :=
    match d.preview with
    | some text => ' ' :: ' ' :: text
    | none => []
  p.paint (d.mode.name.toList ++ unit ++ preview) { dim := true }

/-! ## Keypads -/

/-- A button in a table whose labels are `width` wide. -/
def cell (p : Printer) (width : Nat) (b : Button) : List Char :=
  let label := b.label.toList
  p.paint ('[' :: label ++ List.replicate (width - label.length) ' ' ++ [']']) b.event.buttonStyle

/-- A keypad as a table, one line a row. -/
def table (p : Printer) (k : Keypad) : List Char :=
  let width := (k.buttons.map fun b => b.label.length).foldl max 0
  k.buttonRows.flatMap fun row =>
    ((row.map (p.cell width)).intersperse [' ']).flatten ++ ['\n']

/-! ## Notices -/

def notice (p : Printer) (message : String) : List Char :=
  (if p.useColor then p.painter { color := some .yellow, bold := true } ['⚠'] else "WARN".toList)
    ++ ' ' :: message.toList

end Printer

end PocketCalc
