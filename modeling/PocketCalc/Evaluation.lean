import PocketCalc.Postfix

/-!
# Evaluation of postfix sequences

A stack machine. An operator or function that finds too few operands is skipped.
Values that are not finite may pass through; only the last one is checked, and a
zero divisor used on the way decides which error it is.

* `Machine.step`, `Machine.run` — the machine.
* `evaluate` — the value of a postfix sequence.
* `evaluateTokens` — the value of an entered expression and its text.
-/

namespace PocketCalc

variable {α : Type}

/-! ## Machine -/

/-- The values at hand, the latest first, and whether a zero divisor was used. -/
structure Machine (α : Type) where
  stack : List α := []
  zeroDivisor : Bool := false

namespace Machine

/-- One entry of the sequence. Without its operands it changes nothing. -/
def step (A : Arithmetic α) (m : Machine α) : Postfix.Item α → Machine α
  | .value v => { m with stack := v :: m.stack }
  | .function f =>
    match m.stack with
    | x :: rest => ⟨A.function f x :: rest, m.zeroDivisor || A.invertsZero f x⟩
    | [] => m
  | .operator op =>
    match m.stack with
    | y :: x :: rest => ⟨A.operator op x y :: rest, m.zeroDivisor || A.dividesByZero op y⟩
    | _ => m

def run (A : Arithmetic α) (m : Machine α) (items : List (Postfix.Item α)) : Machine α :=
  items.foldl (step A) m

end Machine

/-- The result that a last value stands for. -/
def checkFinite (A : Arithmetic α) (zeroDivisor : Bool) (v : α) : Except CalcError α :=
  if A.isFinite v then .ok v
  else if zeroDivisor then .error .divisionByZero
  else .error .domainError

/-- The value of a postfix sequence: the last one on the stack. -/
def evaluate (A : Arithmetic α) (items : List (Postfix.Item α)) : Except CalcError α :=
  let m := Machine.run A {} items
  match m.stack with
  | v :: _ => checkFinite A m.zeroDivisor v
  | [] => .error (.malformedInput .noValueLeft)

/-! ## Expressions -/

/-- A value together with its text on the display. -/
structure Evaluation where
  value : Float
  display : List Char

/-- The value of an expression: completed, converted, evaluated. -/
def valueOf (A : Arithmetic α) (tokens : List Token) : Except CalcError α := do
  let complete ← finalize tokens
  let items ← Postfix.ofTokens A complete
  evaluate A items

/-- The value of an expression in floating-point arithmetic, and its text. -/
def evaluateTokens (unit : AngleUnit) (format : NumberFormat) (tokens : List Token) :
    Except CalcError Evaluation := do
  let value ← valueOf (.binary64 unit) tokens
  let display ← format.format value
  return ⟨value, display⟩

end PocketCalc
