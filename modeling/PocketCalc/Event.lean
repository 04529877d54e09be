import PocketCalc.Error
import PocketCalc.Token

/-!
# Key events and their outcomes

An event is one press of a key. Every event runs to completion and reports what
it did.
-/

namespace PocketCalc

/-- One press of a key. -/
inductive Event where
  /-- A digit key; ten and above are no digits. -/
  | digit (d : UInt8)
  | decimalPoint
  | operator (op : Operator)
  /-- A function; opens a group. -/
  | function (f : Func)
  | constant (c : Constant)
  /-- Closes a group where one can be closed, otherwise opens one. -/
  | openOrCloseParen
  | openParen
  | closeParen
  /-- The key `^`. -/
  | power
  /-- The key `x²`. -/
  | powerOfTwo
  /-- The key `eˣ`. -/
  | exponential
  | backspace
  | clear
  | equals
  | toggleAngleUnit
  deriving DecidableEq, Repr

inductive Outcome where
  | updated
  /-- The event does not apply here; nothing changed. -/
  | ignored
  /-- The event was refused, and why; nothing changed. -/
  | rejected (reason : CalcError)
  /-- An evaluation, with the line that is now displayed. -/
  | evaluated (display : List Char)
  deriving DecidableEq, Repr

namespace Outcome

def changed : Outcome → Bool
  | updated | evaluated _ => true
  | ignored | rejected _ => false

/-- The message of a refused event. -/
def notice? : Outcome → Option String
  | rejected reason => some reason.message
  | _ => none

end Outcome

/-- An event as it is named in a list of steps. -/
def Event.caption : Event → String
  | digit d => "Digit(" ++ toString d.toNat ++ ")"
  | decimalPoint => "DecimalPoint"
  | operator .add => "Operator(Add)"
  | operator .subtract => "Operator(Subtract)"
  | operator .multiply => "Operator(Multiply)"
  | operator .divide => "Operator(Divide)"
  | operator .power => "Operator(Power)"
  | function .sin => "Function(Sin)"
  | function .cos => "Function(Cos)"
  | function .tan => "Function(Tan)"
  | function .ln => "Function(Ln)"
  | function .log => "Function(Log)"
  | function .sqrt => "Function(Sqrt)"
  | function .abs => "Function(Abs)"
  | function .inv => "Function(Inv)"
  | constant .pi => "Constant(Pi)"
  | constant .e => "Constant(E)"
  | openOrCloseParen => "OpenOrCloseParen"
  | openParen => "OpenParen"
  | closeParen => "CloseParen"
  | power => "Power"
  | powerOfTwo => "PowerOfTwo"
  | exponential => "Exponential"
  | backspace => "Backspace"
  | clear => "Clear"
  | equals => "Equals"
  | toggleAngleUnit => "ToggleAngleUnit"

end PocketCalc
