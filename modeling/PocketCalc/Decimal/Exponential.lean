import PocketCalc.Decimal.Notation

/-!
# Exponential notation with a fixed number of digits

`Scientific.exponential places` writes one digit, `places` further digits behind
the point, and a signed exponent. The digits of the number are rounded at that
place, a half away from zero; when all of them are nines the carry makes them
`1000…` and the exponent one larger.

* `increment` — adding one unit in the last place, with the carry that runs off
  the front.
* `roundDigits` — the rounding, on digits and exponent.
-/

namespace PocketCalc.Decimal

/-! ## Carry -/

/-- One unit in the last place more, and whether the carry runs off the front. -/
def increment : List Digit → Bool × List Digit
  | [] => (true, [])
  | d :: ds =>
    match increment ds with
    | (false, ds') => (false, d :: ds')
    | (true, ds') => if d = 9 then (true, 0 :: ds') else (false, (d + 1) :: ds')

@[simp] theorem length_increment (ds : List Digit) : (increment ds).2.length = ds.length := by
  induction ds with
  | nil => rfl
  | cons d ds ih =>
    unfold increment
    split
    · next h => simp [h] at ih; simp [ih]
    · next h => simp [h] at ih; split <;> simp [ih]

/-! ## Rounding -/

/-- Exactly `wanted` digits and the exponent that goes with them. Missing digits
are zeros; of too many the rest is rounded off, a half upwards. -/
def roundDigits (ds : List Digit) (exponent : Int) (wanted : Nat) : List Digit × Int :=
  match ds.drop wanted with
  | [] => (ds ++ List.replicate (wanted - ds.length) 0, exponent)
  | next :: _ =>
    if next < 5 then (ds.take wanted, exponent)
    else
      match increment (ds.take wanted) with
      | (false, kept) => (kept, exponent)
      | (true, kept) => ((1 :: kept).take wanted, exponent + 1)

/-- One digit, `places` digits behind the point, and a signed exponent. -/
def Scientific.exponential (s : Scientific) (places : Nat) : List Char :=
  let (ds, exponent) := roundDigits s.digits s.exponent (places + 1)
  signed s.isNegative (mantissa ds ++ 'e' :: signedExponent exponent)

end PocketCalc.Decimal
