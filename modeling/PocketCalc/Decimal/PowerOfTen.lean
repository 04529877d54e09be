/-!
# Powers of ten by repeated squaring

`powerOfTen n` multiplies floating-point squares of ten, one factor per binary
digit of `n`, so that its value is fixed to the last bit; a negative exponent
gives the reciprocal of the positive power.
-/

namespace PocketCalc.Decimal

/-- `product · base^exponent` by squaring. The bit length of the exponent bounds
the number of steps. -/
def squareMultiply : Nat → Float → Float → Nat → Float
  | 0, base, product, exponent => if exponent % 2 = 1 then product * base else product
  | fuel + 1, base, product, exponent =>
    let product := if exponent % 2 = 1 then product * base else product
    if exponent / 2 = 0 then product
    else squareMultiply fuel (base * base) product (exponent / 2)

/-- `10^n` as a floating-point value. -/
def powerOfTen (n : Int) : Float :=
  let power := squareMultiply n.natAbs.log2 10 1 n.natAbs
  if n < 0 then 1 / power else power

end PocketCalc.Decimal
