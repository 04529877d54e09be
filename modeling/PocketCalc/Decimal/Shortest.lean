import PocketCalc.Decimal.Binary
import PocketCalc.Decimal.Digit

/-!
# The fewest digits that identify a value

The reals that round to a given floating-point value form an interval. Among
the decimals inside it the ones with the fewest digits are the short names of
the value, and of those the nearest is chosen.

* `Binary.readsBack` — membership in the interval.
* `Binary.onGrid` — the chosen name on one decimal grid, if it has one.
* `Binary.shortest` — the coarsest grid with a name wins.

An exact tie between two names goes to the larger magnitude: `2^-25` is
`2.9802322387695313e-8`.
-/

namespace PocketCalc.Decimal

/-- The number `coefficient · 10^exponent`. -/
structure Dec where
  coefficient : Nat
  exponent : Int
  deriving DecidableEq, Repr

/-! ## The rounding interval -/

/-- The decimal lies among the reals that round to the magnitude of `x`: from
halfway to the neighbour below up to halfway to the neighbour above, the ends
included exactly when `m` is even. -/
def Binary.readsBack (x : Binary) (d : Dec) : Bool :=
  let lower := if x.narrowBelow then 4 * x.m - 1 else 4 * x.m - 2
  let upper := 4 * x.m + 2
  if x.m % 2 = 0 then
    binaryLe lower (x.q - 2) d.coefficient d.exponent
      && decimalLe d.coefficient d.exponent upper (x.q - 2)
  else
    !decimalLe d.coefficient d.exponent lower (x.q - 2)
      && !binaryLe upper (x.q - 2) d.coefficient d.exponent

/-! ## Selection -/

/-- The number of decimal digits in front of the point, or, for a magnitude below
one, minus the number of zeros right after it: the magnitude is at least
`10^(p - 1)` and below `10^p`. -/
def Binary.leadingPlace (x : Binary) : Int :=
  let num := x.m * Nat.pow 2 x.q.toNat
  let den := Nat.pow 2 (-x.q).toNat
  if den ≤ num then ((numeral (num / den)).length : Int)
  else
    -- The least power of ten that is at least `den / num` has this many digits after its one.
    let above := (den + num - 1) / num - 1
    1 - ((numeral above).length : Int)

/-- The name of `x` on the grid of multiples of `10^e`: the neighbour that reads
back, the nearer of two, the upper of two equally near. -/
def Binary.onGrid (x : Binary) (e : Int) : Option Dec :=
  let c := x.floorAt e
  let below : Dec := ⟨c, e⟩
  let above : Dec := ⟨c + 1, e⟩
  if x.readsBack below then
    if x.readsBack above && decimalLe (2 * c + 1) e x.m (x.q + 1) then some above
    else some below
  else if x.readsBack above then some above
  else none

def Binary.exact (x : Binary) : Dec :=
  if 0 ≤ x.q then ⟨x.m * Nat.pow 2 x.q.toNat, 0⟩ else ⟨x.m * Nat.pow 5 (-x.q).toNat, x.q⟩

/-- The shortest name of `x`: the first of the grids of one, two, … seventeen
digits on which it has one. -/
def Binary.shortest (x : Binary) : Dec :=
  ((List.range 17).findSome? fun (n : Nat) => x.onGrid (x.leadingPlace - 1 - (n : Int))).getD x.exact

end PocketCalc.Decimal
