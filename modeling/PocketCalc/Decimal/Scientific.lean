import PocketCalc.Decimal.Shortest

/-!
# Scientific form

A number as sign, digits and the exponent of the leading digit:
`± d₁.d₂…dₖ · 10^x`. Zero has the one digit `0`; an infinity and a value that is
no number have no digits at all.

* `Scientific.ofFloat` — the form with the shortest digits that identify a value.
* `Scientific.ofDec` — trailing zeros move from the digits to the exponent.
-/

namespace PocketCalc.Decimal

/-- `± d₁.d₂…dₖ · 10^exponent`. -/
structure Scientific where
  negative : Bool
  digits : List Digit
  exponent : Int
  deriving DecidableEq, Repr

namespace Scientific

/-- Digits without the zeros at their end; one digit stays. -/
def trim : List Digit → List Digit
  | [] => []
  | d :: ds =>
    match trim ds with
    | [] => [d]
    | [0] => [d]
    | rest => d :: rest

def ofDec (negative : Bool) (d : Dec) : Scientific :=
  let ds := numeral d.coefficient
  ⟨negative, trim ds, d.exponent + (ds.length : Int) - 1⟩

/-- The scientific form of a finite value, with as few digits as identify it. -/
def ofBinary (x : Binary) : Scientific :=
  if x.m = 0 then ⟨x.negative, [0], 0⟩ else ofDec x.negative x.shortest

def ofFloat (x : Float) : Scientific :=
  match Parts.ofFloat x with
  | .notANumber => ⟨false, [], 0⟩
  | .infinite negative => ⟨negative, [], 0⟩
  | .finite b => ofBinary b

/-- The number zero, of either sign. -/
def isZero (s : Scientific) : Bool :=
  s.digits == [0]

/-- Below zero. Negative zero is not. -/
def isNegative (s : Scientific) : Bool :=
  s.negative && !s.isZero

end Scientific

end PocketCalc.Decimal
