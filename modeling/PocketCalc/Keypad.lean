import PocketCalc.Decimal.Digit
import PocketCalc.Event
import PocketCalc.Settings

/-!
# Keypads and keyboard keys

A keypad is a grid of buttons. A button is addressed by its id, by its place in the
grid, or by the event it sends. Keyboard keys and the words of a key script are
named independently of any keypad.

* `Button.ofEvent` — id and label of the button for an event.
* `Keypad.basic`, `Keypad.scientific` — the two layouts.
* `keyEvent?` — the event of a keyboard key or word.
-/

namespace PocketCalc

/-! ## Buttons -/

structure Button where
  event : Event
  id : String
  label : String
  row : Nat
  col : Nat
  deriving DecidableEq, Repr

/-- The part of a button's id that names its event. -/
def Event.buttonName : Event → String
  | digit d => toString d.toNat
  | decimalPoint => "decimal"
  | operator .add => "plus"
  | operator .subtract => "minus"
  | operator .multiply => "times"
  | operator .divide => "divide"
  | operator .power => "power"
  | function f => f.name
  | constant k => k.name
  | openOrCloseParen => "paren"
  | openParen => "open-paren"
  | closeParen => "close-paren"
  | power => "power"
  | powerOfTwo => "square"
  | exponential => "exp"
  | backspace => "backspace"
  | clear => "clear"
  | equals => "equals"
  | toggleAngleUnit => "angle"

/-- The text on the button for an event. -/
def Event.label : Event → String
  | digit d => toString d.toNat
  | decimalPoint => "."
  | operator op => String.singleton op.symbol
  | function .inv => "1/x"
  | function .abs => "|x|"
  | function f => f.symbol
  | constant k => String.singleton k.symbol
  | openOrCloseParen => "( )"
  | openParen => "("
  | closeParen => ")"
  | power => "^"
  | powerOfTwo => "x²"
  | exponential => "eˣ"
  | backspace => "⌫"
  | clear => "C"
  | equals => "="
  | toggleAngleUnit => "DEG/RAD"

/-- The button for an event at a place of the grid. -/
def Button.ofEvent (event : Event) (row col : Nat) : Button where
  event := event
  id := "btn-" ++ event.buttonName
  label := event.label
  row := row
  col := col

/-! ## Layouts -/

/-- A keypad: as many rows as there are, each with the same number of columns. -/
structure Keypad where
  mode : Mode
  grid : List (List Event)
  deriving DecidableEq, Repr

namespace Keypad

/-- The keypad with four operations:

```text
[ C ] [ ⌫ ] [( )] [ ÷ ]
[ 7 ] [ 8 ] [ 9 ] [ × ]
[ 4 ] [ 5 ] [ 6 ] [ − ]
[ 1 ] [ 2 ] [ 3 ] [ + ]
[ 0 ] [ . ] [ ^ ] [ = ]
```
-/
def basic : Keypad where
  mode := .basic
  grid :=
    [[.clear, .backspace, .openOrCloseParen, .operator .divide],
     [.digit 7, .digit 8, .digit 9, .operator .multiply],
     [.digit 4, .digit 5, .digit 6, .operator .subtract],
     [.digit 1, .digit 2, .digit 3, .operator .add],
     [.digit 0, .decimalPoint, .power, .equals]]

/-- The scientific keypad:

```text
[DEG] [sin] [cos] [tan] [ C ]
[ln ] [log] [ √ ] [|x|] [ ⌫ ]
[ π ] [ e ] [x² ] [eˣ ] [1/x]
[ ( ] [ 7 ] [ 8 ] [ 9 ] [ ÷ ]
[ ) ] [ 4 ] [ 5 ] [ 6 ] [ × ]
[ ^ ] [ 1 ] [ 2 ] [ 3 ] [ − ]
[( )] [ 0 ] [ . ] [ = ] [ + ]
```
-/
def scientific : Keypad where
  mode := .scientific
  grid :=
    [[.toggleAngleUnit, .function .sin, .function .cos, .function .tan, .clear],
     [.function .ln, .function .log, .function .sqrt, .function .abs, .backspace],
     [.constant .pi, .constant .e, .powerOfTwo, .exponential, .function .inv],
     [.openParen, .digit 7, .digit 8, .digit 9, .operator .divide],
     [.closeParen, .digit 4, .digit 5, .digit 6, .operator .multiply],
     [.power, .digit 1, .digit 2, .digit 3, .operator .subtract],
     [.openOrCloseParen, .digit 0, .decimalPoint, .equals, .operator .add]]

def ofMode : Mode → Keypad
  | .basic => basic
  | .scientific => scientific

def rows (k : Keypad) : Nat :=
  k.grid.length

def cols (k : Keypad) : Nat :=
  match k.grid with
  | row :: _ => row.length
  | [] => 0

def buttonRows (k : Keypad) : List (List Button) :=
  k.grid.zipIdx.map fun (events, row) =>
    events.zipIdx.map fun (event, col) => Button.ofEvent event row col

def buttons (k : Keypad) : List Button :=
  k.buttonRows.flatten

/-- The button at a place of the grid. -/
def buttonAt? (k : Keypad) (row col : Nat) : Option Button := do
  let buttons ← k.buttonRows[row]?
  buttons[col]?

def buttonWithId? (k : Keypad) (id : String) : Option Button :=
  k.buttons.find? fun b => b.id == id

def buttonFor? (k : Keypad) (event : Event) : Option Button :=
  k.buttons.find? fun b => b.event == event

/-- The event of a click on the button with an id. -/
def click? (k : Keypad) (id : String) : Option Event :=
  (k.buttonWithId? id).map Button.event

end Keypad

/-! ## Keyboard -/

/-- The event of a key that enters one character: a digit or an operator. -/
def characterEvent? (c : Char) : Option Event :=
  match Decimal.Digit.ofChar? c with
  | some d => some (.digit d.val.toUInt8)
  | none => (Operator.ofChar? c).map .operator

/-- The event of a key that enters part of an expression: a single character, a
function name, or the name of a constant. -/
def valueEvent? (key : String) : Option Event :=
  let single :=
    match key.toList with
    | [c] => characterEvent? c
    | _ => none
  (single.orElse fun _ => (Func.ofName? key).map .function).orElse fun _ =>
    (Constant.ofName? key).map .constant

/-- The event of a keyboard key or a word of a key script. -/
def keyEvent? (key : String) : Option Event :=
  match key with
  | "." | "," => some .decimalPoint
  | "^" => some .power
  | "(" => some .openParen
  | ")" => some .closeParen
  | "()" => some .openOrCloseParen
  | "Enter" | "=" => some .equals
  | "Escape" | "Delete" | "c" | "C" => some .clear
  | "Backspace" => some .backspace
  | "sq" | "x²" => some .powerOfTwo
  | "exp" => some .exponential
  | "deg" | "rad" | "angle" => some .toggleAngleUnit
  | key => valueEvent? key

end PocketCalc
