import PocketCalc.Decimal.Literal
import PocketCalc.Settings
import PocketCalc.Token

/-!
# Arithmetic behind the tokens

What an expression needs to know about its values: how a literal and a constant
are read, what operators and functions compute, and which values are zero or
finite. Conversion and evaluation are written over any `Arithmetic`; the
calculator runs on `Arithmetic.binary64`.
-/

namespace PocketCalc

/-- An interpretation of the tokens in values of type `α`. -/
structure Arithmetic (α : Type) where
  literal? : List Char → Option α
  constant : Constant → α
  operator : Operator → α → α → α
  function : Func → α → α
  isZero : α → Bool
  isFinite : α → Bool

namespace Arithmetic

variable {α : Type}

def dividesByZero (A : Arithmetic α) (op : Operator) (right : α) : Bool :=
  op = .divide && A.isZero right

/-- The function divides by zero: only the reciprocal does. -/
def invertsZero (A : Arithmetic α) (f : Func) (x : α) : Bool :=
  f = .inv && A.isZero x

def applyOperator : Operator → Float → Float → Float
  | .add, x, y => x + y
  | .subtract, x, y => x - y
  | .multiply, x, y => x * y
  | .divide, x, y => x / y
  | .power, x, y => x.pow y

def applyFunction (unit : AngleUnit) : Func → Float → Float
  | .sin, x => (unit.toRadians x).sin
  | .cos, x => (unit.toRadians x).cos
  | .tan, x => (unit.toRadians x).tan
  | .ln, x => x.log
  | .log, x => x.log10
  | .sqrt, x => x.sqrt
  | .abs, x => x.abs
  | .inv, x => 1 / x

/-- Floating-point arithmetic, with angles in the given unit. -/
def binary64 (unit : AngleUnit) : Arithmetic Float where
  literal? := Decimal.readFloat?
  constant := Constant.value
  operator := applyOperator
  function := applyFunction unit
  isZero x := x == 0
  isFinite := Decimal.isFinite

end Arithmetic

end PocketCalc
