import PocketCalc.Display
import PocketCalc.Json
import PocketCalc.Keypad

/-!
# Events, buttons and displays as JSON

An event is an object with its name and, where it has one, its value. The fields of
a button and of a display stand in a fixed order.
-/

namespace PocketCalc

/-! ## Events -/

namespace Event

def name : Event → String
  | digit _ => "digit"
  | decimalPoint => "decimal_point"
  | operator _ => "operator"
  | function _ => "function"
  | constant _ => "constant"
  | openOrCloseParen => "open_or_close_paren"
  | openParen => "open_paren"
  | closeParen => "close_paren"
  | power => "power"
  | powerOfTwo => "power_of_two"
  | exponential => "exponential"
  | backspace => "backspace"
  | clear => "clear"
  | equals => "equals"
  | toggleAngleUnit => "toggle_angle_unit"

/-- The value of an event, if it has one. -/
def value? : Event → Option Json
  | digit d => some (.nat d.toNat)
  | operator op => some (.ofString op.name)
  | function f => some (.ofString f.name)
  | constant k => some (.ofString k.name)
  | _ => none

def toJson (e : Event) : Json :=
  .obj (("event", .ofString e.name) :: (e.value?.map fun v => ("value", v)).toList)

end Event

/-! ## Buttons -/

def Button.toJson (b : Button) : Json :=
  .obj [("event", b.event.toJson), ("id", .ofString b.id), ("label", .ofString b.label),
    ("row", .nat b.row), ("col", .nat b.col)]

def Keypad.toJson (k : Keypad) : Json :=
  .arr (k.buttons.map Button.toJson)

/-! ## Displays -/

def DisplayToken.toJson (t : DisplayToken) : Json :=
  .obj [("text", .str t.text), ("kind", .ofString t.kind.name)]

def Display.toJson (d : Display) : Json :=
  .obj [("tokens", .arr (d.tokens.map DisplayToken.toJson)), ("pending", .str d.pending),
    ("is_result", .bool d.isResult), ("is_error", .bool d.isError),
    ("division_warning", .bool d.divisionWarning), ("preview", .ofOption .str d.preview),
    ("angle_unit", .ofString d.angleUnit.name), ("mode", .ofString d.mode.name)]

end PocketCalc
