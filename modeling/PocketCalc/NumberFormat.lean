import PocketCalc.Decimal.Exponential
import PocketCalc.Decimal.PowerOfTen
import PocketCalc.Error

/-!
# Numbers on a display of fixed width

A result is first rounded to a number of decimal places, which removes the noise
of binary arithmetic. Its text is kept if it fits the width; otherwise a result
of `10^12` or more is written with an exponent, and any other is cut.

* `NumberFormat.round` — half-up rounding to decimal places.
* `NumberFormat.format` — the text of a result.
-/

namespace PocketCalc

open Decimal

/-- How results are written. -/
structure NumberFormat where
  /-- Characters that fit the display. -/
  width : Nat := 12
  /-- Decimal places kept by rounding. Read as a signed 32-bit word: from `2^31` on
  the places count to the left of the point. -/
  decimals : UInt32 := 9
  /-- Digits behind the point in exponential notation. -/
  exponentDigits : Nat := 5
  deriving DecidableEq, Repr

namespace NumberFormat

def places (f : NumberFormat) : Int :=
  f.decimals.toInt32.toInt

/-- From this magnitude on a scaled value has no fraction worth rounding. -/
def exactFrom : Nat := Nat.pow 2 52

/-- From this magnitude on a result too long for the display is written with an exponent. -/
def exponentFrom : Nat := Nat.pow 10 12

/-- The greatest integer not above a finite floating-point value. -/
def floor? (x : Float) : Option Int :=
  match Parts.ofFloat x with
  | .finite b => some b.floor
  | _ => none

/-- Rounds half up to the decimal places of the format. A value that scaling takes
out of the range of exact integers is left alone; negative zero becomes zero. -/
def round (f : NumberFormat) (x : Float) : Float :=
  let scale := powerOfTen f.places
  let scaled := x * scale
  if !isFinite scaled || (Parts.ofFloat scaled).atLeast exactFrom then x
  else
    match floor? (scaled + 0.5) with
    | none => x
    | some n =>
      let rounded := Float.ofInt n / scale
      if rounded == 0 then 0 else rounded

/-- The text of a rounded result: whole if it fits, else with an exponent from
`10^12` on, else cut to the width. -/
def fit (f : NumberFormat) (rounded : Float) : List Char :=
  let s := Scientific.ofFloat rounded
  let text := s.standard
  if text.length ≤ f.width then text
  else if (Parts.ofFloat rounded).atLeast exponentFrom then s.exponential f.exponentDigits
  else dropFinalPoints (text.take f.width)

/-- The text of a result. A value that is not finite has none. -/
def format (f : NumberFormat) (x : Float) : Except CalcError (List Char) :=
  if isFinite x then .ok (f.fit (f.round x)) else .error .domainError

end NumberFormat

end PocketCalc
