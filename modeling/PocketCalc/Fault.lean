import PocketCalc.Calculator
import PocketCalc.Decimal.Checked

/-!
# Events that leave a range

An event that evaluates writes its result with operations that have a range. Events that leave
it lead to no state at all. Want of memory is no fault here.

* `NumberFormat.formatChecked` — the text of a result, or the fault on the way to it.
* `Calculator.fault?` — the fault of one event.
* `Calculator.firstFault?` — the first fault of a sequence of events.
-/

namespace PocketCalc

open Decimal

namespace NumberFormat

/-- The text of a rounded result. -/
def fitChecked (f : NumberFormat) (rounded : Float) : Checked (List Char) := do
  let s := Scientific.ofFloat rounded
  let text ← s.standardChecked
  if text.length ≤ f.width then return text
  else if (Parts.ofFloat rounded).atLeast exponentFrom then s.exponentialChecked f.exponentDigits
  else return dropFinalPoints (text.take f.width)

/-- The text of a result. A value that is not finite has none, which is no fault. -/
def formatChecked (f : NumberFormat) (x : Float) : Checked (Except CalcError (List Char)) :=
  if isFinite x then do
    let text ← f.fitChecked (f.round x)
    return .ok text
  else return .error .domainError

end NumberFormat

namespace Calculator

/-- The fault of an event while it writes a result, which only evaluating does. -/
def fault? (c : Calculator) : Event → Option Fault
  | .equals =>
    match valueOf (.binary64 c.angleUnit) c.expression with
    | .ok value =>
      match c.settings.format.formatChecked value with
      | .ok _ => none
      | .error fault => some fault
    | .error _ => none
  | _ => none

/-- The first fault of a sequence of events, behind which there is no state. -/
def firstFault? (c : Calculator) : List Event → Option Fault
  | [] => none
  | e :: es =>
    match c.fault? e with
    | some fault => some fault
    | none => (c.apply e).2.firstFault? es

end Calculator

end PocketCalc
