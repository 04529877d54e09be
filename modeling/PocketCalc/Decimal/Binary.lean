/-!
# Floating-point values as exact binary numbers

A finite value is `± m · 2^q`; this file reads `m` and `q` off the bits and
answers questions about the value in exact integer arithmetic.

* `Binary.ofBits`, `Parts.ofFloat` — the decoding.
* `Binary.atLeast` — comparison of the magnitude with a natural number.
* `Binary.floor` — the greatest integer that is not above the value.
-/

namespace PocketCalc.Decimal

/-- A finite value, `m · 2^q`, negated if `negative`. -/
structure Binary where
  negative : Bool
  m : Nat
  q : Int
  /-- The gap to the next smaller magnitude is half the gap to the next larger one. -/
  narrowBelow : Bool
  deriving DecidableEq, Repr

/-- What a floating-point value is: no number, an infinity, or a finite number. -/
inductive Parts where
  | notANumber
  | infinite (negative : Bool)
  | finite (value : Binary)
  deriving DecidableEq, Repr

/-! ## Decoding -/

/-- The finite value with the given sign, exponent field and fraction field.
Exponent field zero holds the subnormal values, which have no leading one. -/
def Binary.ofFields (negative : Bool) (exponent fraction : Nat) : Binary :=
  if exponent = 0 then ⟨negative, fraction, -1074, false⟩
  else ⟨negative, Nat.pow 2 52 + fraction, (exponent : Int) - 1075, fraction == 0 && exponent != 1⟩

/-- The parts of a 64-bit pattern: one sign bit, eleven exponent bits, fifty-two
fraction bits. The largest exponent field marks infinities and non-numbers. -/
def Parts.ofBits (bits : Nat) : Parts :=
  let negative := Nat.pow 2 63 ≤ bits
  let exponent := bits / Nat.pow 2 52 % Nat.pow 2 11
  let fraction := bits % Nat.pow 2 52
  if exponent = 2047 then
    if fraction = 0 then .infinite negative else .notANumber
  else .finite (Binary.ofFields negative exponent fraction)

def Parts.ofFloat (x : Float) : Parts :=
  Parts.ofBits x.toBits.toNat

/-- Whether a floating-point value is a finite number. -/
def isFinite (x : Float) : Bool :=
  match Parts.ofFloat x with
  | .finite _ => true
  | _ => false

/-! ## Exact comparisons -/

/-- `c · 10^e ≤ n · 2^j`, with the denominators cleared. -/
def decimalLe (c : Nat) (e : Int) (n : Nat) (j : Int) : Bool :=
  c * Nat.pow 10 e.toNat * Nat.pow 2 (-j).toNat ≤ n * Nat.pow 2 j.toNat * Nat.pow 10 (-e).toNat

/-- `n · 2^j ≤ c · 10^e`, with the denominators cleared. -/
def binaryLe (n : Nat) (j : Int) (c : Nat) (e : Int) : Bool :=
  n * Nat.pow 2 j.toNat * Nat.pow 10 (-e).toNat ≤ c * Nat.pow 10 e.toNat * Nat.pow 2 (-j).toNat

/-- The magnitude is `n` or more. -/
def Binary.atLeast (x : Binary) (n : Nat) : Bool :=
  decimalLe n 0 x.m x.q

/-- The magnitude is `n` or more; an infinity is, something that is no number is not. -/
def Parts.atLeast : Parts → Nat → Bool
  | .notANumber, _ => false
  | .infinite _, _ => true
  | .finite x, n => x.atLeast n

/-! ## Whole parts -/

/-- The greatest integer that is not above the value. -/
def Binary.floor (x : Binary) : Int :=
  let signed : Int := if x.negative then -(x.m : Int) else x.m
  signed * Nat.pow 2 x.q.toNat / Nat.pow 2 (-x.q).toNat

/-- The greatest `c` for which `c · 10^e` does not exceed the magnitude. -/
def Binary.floorAt (x : Binary) (e : Int) : Nat :=
  x.m * Nat.pow 2 x.q.toNat * Nat.pow 10 (-e).toNat
    / (Nat.pow 10 e.toNat * Nat.pow 2 (-x.q).toNat)

end PocketCalc.Decimal
