import PocketCalc.Decimal.Scientific

/-!
# Writing numbers

Three ways to write a number from its scientific form.

* `Scientific.compact` — always with an exponent: `1.5e-7`.
* `Scientific.positional` — never with an exponent: `0.00000015`.
* `Scientific.standard` — positional while the leading digit stands between
  `10^-6` and `10^20`, with a signed exponent outside: `1e+21`, `1.5e-7`.
-/

namespace PocketCalc.Decimal

/-- A minus sign in front of `text` if `negative`. -/
def signed (negative : Bool) (text : List Char) : List Char :=
  if negative then '-' :: text else text

/-- The first digit, and behind a point the others if there are any. -/
def mantissa : List Digit → List Char
  | [] => []
  | [d] => [d.toChar]
  | d :: ds => d.toChar :: '.' :: spell ds

def signedExponent (e : Int) : List Char :=
  (if 0 ≤ e then '+' else '-') :: natText e.natAbs

/-- A text without the points at its end. -/
def dropFinalPoints (text : List Char) : List Char :=
  (text.reverse.dropWhile (· == '.')).reverse

def zeros (n : Nat) : List Char :=
  List.replicate n '0'

/-- Digits with the point after the first `point` of them: zeros fill the places
between the digits and the point on either side. -/
def placePoint (ds : List Digit) (point : Int) : List Char :=
  if point ≤ 0 then '0' :: '.' :: zeros point.natAbs ++ spell ds
  else if (ds.length : Int) ≤ point then spell ds ++ zeros (point.toNat - ds.length)
  else spell (ds.take point.toNat) ++ '.' :: spell (ds.drop point.toNat)

namespace Scientific

/-- Mantissa and exponent, as in `-2.5e-7` and `0e0`. -/
def compact (s : Scientific) : List Char :=
  signed s.negative (mantissa s.digits ++ 'e' :: signed (s.exponent < 0) (natText s.exponent.natAbs))

/-- All digits in their places, as in `0.00000025` and `1000000000000000000000`. -/
def positional (s : Scientific) : List Char :=
  signed s.negative (if s.isZero then ['0'] else placePoint s.digits (s.exponent + 1))

/-- Positional for leading exponents from `-6` to `20`, otherwise with a signed
exponent. Zero is written without a sign. -/
def standard (s : Scientific) : List Char :=
  if s.isZero then ['0']
  else signed s.negative
    (if -6 ≤ s.exponent ∧ s.exponent ≤ 20 then placePoint s.digits (s.exponent + 1)
     else mantissa s.digits ++ 'e' :: signedExponent s.exponent)

end Scientific

/-- The text of a floating-point value that has no digits. -/
def withoutDigits? (x : Float) : Option (List Char) :=
  match Parts.ofFloat x with
  | .notANumber => some "NaN".toList
  | .infinite negative => some (signed negative "inf".toList)
  | .finite _ => none

/-- The shortest digits of a value with its exponent, as in `1e0`, `-0e0`, `inf`, `NaN`. -/
def compactText (x : Float) : List Char :=
  (withoutDigits? x).getD (Scientific.ofFloat x).compact

/-- The shortest digits of a value in their places, as in `100`, `-0`, `inf`, `NaN`. -/
def positionalText (x : Float) : List Char :=
  (withoutDigits? x).getD (Scientific.ofFloat x).positional

end PocketCalc.Decimal
