import Mathlib.Algebra.Group.Nat.Defs
import PocketCalc.Decimal.Exponential

/-!
# What numerals stand for

The value of a list of digits by position, and what the operations on digits do to it.

* `numeralValue_append` — a part in front counts with the power of ten of what follows.
* `numeralValue_numeral` — **the digits of a number stand for that number.**
* `numeralValue_increment` — one unit in the last place is one more, carry included.
-/

namespace PocketCalc.Decimal

/-! ## Positions -/

theorem foldl_numeralValue (n : Nat) (ds : List Digit) :
    ds.foldl (fun n d => 10 * n + d.val) n = n * 10 ^ ds.length + numeralValue ds := by
  unfold numeralValue
  induction ds generalizing n with
  | nil => simp
  | cons d ds ih =>
    simp only [List.foldl_cons, List.length_cons]
    rw [ih, ih (10 * 0 + d.val), Nat.pow_succ, Nat.mul_zero, Nat.zero_add, Nat.add_mul,
      Nat.add_assoc, Nat.mul_comm 10 n, Nat.mul_assoc, Nat.mul_comm 10 (10 ^ ds.length)]

theorem numeralValue_cons (d : Digit) (ds : List Digit) :
    numeralValue (d :: ds) = d.val * 10 ^ ds.length + numeralValue ds := by
  have h := foldl_numeralValue d.val ds
  simpa [numeralValue] using h

theorem numeralValue_append (as bs : List Digit) :
    numeralValue (as ++ bs) = numeralValue as * 10 ^ bs.length + numeralValue bs := by
  have h := foldl_numeralValue (numeralValue as) bs
  simpa [numeralValue, List.foldl_append] using h

/-! ## Digits of a number -/

theorem numeralValue_numeralOnto (fuel n : Nat) (tail : List Digit) (h : n < 10 ^ (fuel + 1)) :
    numeralValue (numeralOnto fuel n tail) = n * 10 ^ tail.length + numeralValue tail := by
  induction fuel generalizing n tail with
  | zero =>
    have h' : n < 10 := by simpa using h
    simp [numeralOnto, numeralValue_cons, Fin.ofNat, Nat.mod_eq_of_lt h']
  | succ fuel ih =>
    unfold numeralOnto
    split
    · next h' => simp [numeralValue_cons, Fin.ofNat, Nat.mod_eq_of_lt h']
    · have h10 : n / 10 < 10 ^ (fuel + 1) := by
        rw [Nat.div_lt_iff_lt_mul (by decide), ← Nat.pow_succ]
        exact h
      rw [ih _ _ h10, numeralValue_cons, List.length_cons, Nat.pow_succ, ← Nat.add_assoc]
      simp only [Fin.ofNat]
      have e : n / 10 * (10 ^ tail.length * 10) + n % 10 * 10 ^ tail.length
          = (10 * (n / 10) + n % 10) * 10 ^ tail.length := by
        rw [Nat.add_mul, Nat.mul_comm (10 ^ tail.length) 10, ← Nat.mul_assoc, Nat.mul_comm (n / 10) 10]
      rw [e, Nat.div_add_mod]

/-- **The digits of a number stand for that number.** -/
@[simp] theorem numeralValue_numeral (n : Nat) : numeralValue (numeral n) = n := by
  have h : n < 10 ^ (n.log2 + 1) :=
    Nat.lt_of_lt_of_le Nat.lt_log2_self (Nat.pow_le_pow_left (by decide) _)
  simp [numeral, numeralValue_numeralOnto n.log2 n [] h]

/-! ## Carry -/

/-- The carry counts as one unit in front of all the digits. -/
theorem numeralValue_increment (ds : List Digit) :
    (if (increment ds).1 then 10 ^ ds.length else 0) + numeralValue (increment ds).2
      = numeralValue ds + 1 := by
  induction ds with
  | nil => rfl
  | cons d ds ih =>
    have hl := length_increment ds
    unfold increment
    split
    · next ds' h =>
      simp only [h, Bool.false_eq_true, if_false, Nat.zero_add] at ih hl ⊢
      rw [numeralValue_cons, numeralValue_cons, ih, hl, Nat.add_assoc]
    · next ds' h =>
      simp only [h, if_true] at ih hl
      split
      · next h9 =>
        subst h9
        simp only [if_true, numeralValue_cons, List.length_cons, Nat.pow_succ, hl]
        simp only [Fin.isValue, Fin.val_zero, Nat.zero_mul, Nat.zero_add]
        have : (9 : Digit).val = 9 := rfl
        omega
      · next h9 =>
        simp only [Bool.false_eq_true, if_false, Nat.zero_add, numeralValue_cons, hl]
        have hv : (d + 1).val = d.val + 1 := by
          revert d h9; decide
        rw [hv, Nat.add_mul, Nat.one_mul]
        omega

end PocketCalc.Decimal
