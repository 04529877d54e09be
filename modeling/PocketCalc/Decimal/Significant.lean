import PocketCalc.Decimal.Notation

/-!
# A fixed number of significant digits

`significantText x n` rounds the exact value to `n` significant digits, a half to
the even neighbour, and writes them with an exponent: one third at twelve digits
is `3.33333333333e-1`.
-/

namespace PocketCalc.Decimal

/-- The quotient `num / den` rounded to the nearest integer, a half to the even one. -/
def roundQuotient (num den : Nat) : Nat :=
  let whole := num / den
  match compare (2 * (num % den)) den with
  | .lt => whole
  | .gt => whole + 1
  | .eq => if whole % 2 = 0 then whole else whole + 1

/-- The multiple of `10^e` nearest to the magnitude of `x`, in units of `10^e`. -/
def Binary.roundAt (x : Binary) (e : Int) : Nat :=
  roundQuotient (x.m * Nat.pow 2 x.q.toNat * Nat.pow 10 (-e).toNat)
    (Nat.pow 10 e.toNat * Nat.pow 2 (-x.q).toNat)

/-- `x` at `n` significant digits. A carry past the front shows as one digit more,
which is then a zero at the end. -/
def Binary.significant (x : Binary) (n : Nat) : Scientific :=
  if x.m = 0 then ⟨x.negative, List.replicate n 0, 0⟩
  else
    let e := x.leadingPlace - (n : Int)
    let ds := numeral (x.roundAt e)
    ⟨x.negative, ds.take n, e + (ds.length : Int) - 1⟩

/-- A floating-point value at `n` significant digits. -/
def significantText (x : Float) (n : Nat) : List Char :=
  match Parts.ofFloat x with
  | .finite b => (b.significant n).compact
  | _ => (withoutDigits? x).getD []

end PocketCalc.Decimal
