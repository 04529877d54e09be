import PocketCalc.Decimal.Notation
import PocketCalc.Proofs.FloatBits
import PocketCalc.Proofs.ShortestName

/-!
# The digits of a floating-point number

The scientific form of a finite value has the digits of its shortest name, without zeros
in front or at the end.

* `Scientific.magnitude` — the number that a form stands for.
* `Scientific.ofDec_eq_of_value` — equal numbers have the same form.
* `Binary.ofBinary_spec` — the form of a value reads back.
* `Binary.ofBinary_eq` — **up to fifteen digits that read back are the digits of the value.**
-/

namespace PocketCalc.Decimal

/-- Digits in front of others are the number in units of their last place, rounded down. -/
theorem numeralValue_front_bounds (front rest : List Digit) (k : ℤ) :
    (numeralValue front : ℚ) * 10 ^ (k + rest.length) ≤ numeralValue (front ++ rest) * 10 ^ k ∧
      (numeralValue (front ++ rest) : ℚ) * 10 ^ k <
        (numeralValue front + 1) * 10 ^ (k + rest.length) := by
  have hunit : (10 : ℚ) ^ (k + rest.length) = 10 ^ rest.length * 10 ^ k := by
    rw [add_comm, zpow_add₀ (by norm_num : (10 : ℚ) ≠ 0), zpow_natCast]
  have hrest : (numeralValue rest : ℚ) < 10 ^ rest.length := by
    exact_mod_cast numeralValue_lt rest
  have hsplit : (numeralValue (front ++ rest) : ℚ) =
      numeralValue front * 10 ^ rest.length + numeralValue rest := by
    rw [numeralValue_append]
    push_cast
    rfl
  rw [hunit, ← mul_assoc, ← mul_assoc, hsplit]
  constructor
  · gcongr
    exact le_add_of_nonneg_right (Nat.cast_nonneg _)
  · gcongr
    rw [add_mul, one_mul]
    gcongr

namespace Scientific

/-- The number that a scientific form stands for, without its sign. -/
def magnitude (s : Scientific) : ℚ :=
  numeralValue s.digits * 10 ^ (s.exponent + 1 - s.digits.length)

/-- The form depends on the number only. -/
theorem ofDec_eq_of_value (negative : Bool) {d d' : Dec} (h0 : d.coefficient ≠ 0)
    (h : d.value = d'.value) : ofDec negative d = ofDec negative d' := by
  have h0' : d'.coefficient ≠ 0 := by
    intro hzero
    have hten : (0 : ℚ) < 10 ^ d.exponent := by positivity
    rw [Dec.value, Dec.value, hzero, Nat.cast_zero, zero_mul, mul_eq_zero] at h
    exact h.elim (fun hc => h0 (by exact_mod_cast hc)) (fun hp => hten.ne' hp)
  -- on the finer of the two grids the coefficients are the same
  have hsame : ∀ {d d' : Dec}, d.exponent ≤ d'.exponent → d'.coefficient ≠ 0 →
      d.value = d'.value → ofDec negative d = ofDec negative d' := by
    intro d d' hle h0 h
    rw [Dec.value, Dec.value, Binary.exists_mul_pow _ hle] at h
    have hten : (10 : ℚ) ^ d.exponent ≠ 0 := by positivity
    have hcoefficient : d.coefficient = d'.coefficient * 10 ^ (d'.exponent - d.exponent).toNat := by
      exact_mod_cast mul_right_cancel₀ hten h
    obtain ⟨c, e⟩ := d
    simp only at hcoefficient hle ⊢
    rw [hcoefficient, ofDec_mul_pow negative h0, Int.toNat_of_nonneg (by omega), add_sub_cancel]
  rcases le_total d.exponent d'.exponent with hle | hle
  · exact hsame hle h0' h
  · exact (hsame hle h0 h.symm).symm

theorem magnitude_ofDec (negative : Bool) (d : Dec) :
    (ofDec negative d).magnitude = d.value := by
  obtain ⟨k, hk⟩ := exists_zeros (numeral d.coefficient)
  have hvalue := numeralValue_append_zeros (trim (numeral d.coefficient)) k
  rw [← hk, numeralValue_numeral] at hvalue
  have hlength := congrArg List.length hk
  rw [List.length_append, List.length_replicate] at hlength
  have hcoefficient : (d.coefficient : ℚ) =
      numeralValue (trim (numeral d.coefficient)) * 10 ^ k := by exact_mod_cast hvalue
  unfold magnitude Dec.value ofDec
  simp only
  generalize trim (numeral d.coefficient) = ds at hcoefficient hlength ⊢
  rw [hcoefficient, mul_assoc, ← zpow_natCast, ← zpow_add₀ (by norm_num : (10 : ℚ) ≠ 0)]
  congr 2
  omega

theorem magnitude_bounds {s : Scientific} (h : Leads s.digits) :
    (10 : ℚ) ^ s.exponent ≤ s.magnitude ∧ s.magnitude < 10 ^ (s.exponent + 1) := by
  have hten : (10 : ℚ) ≠ 0 := by norm_num
  have hpos := h.length_pos
  constructor
  · calc (10 : ℚ) ^ s.exponent
        = (10 ^ (s.digits.length - 1) : ℕ) * 10 ^ (s.exponent + 1 - s.digits.length) := by
          rw [Nat.cast_pow, ← zpow_natCast, Nat.cast_ofNat, ← zpow_add₀ hten]
          congr 1
          omega
      _ ≤ s.magnitude := by
          unfold magnitude
          gcongr
          exact h.pow_le
  · calc s.magnitude
        < (10 ^ s.digits.length : ℕ) * 10 ^ (s.exponent + 1 - s.digits.length) := by
          unfold magnitude
          gcongr
          exact numeralValue_lt _
      _ = 10 ^ (s.exponent + 1) := by
          rw [Nat.cast_pow, ← zpow_natCast, Nat.cast_ofNat, ← zpow_add₀ hten]
          congr 1
          omega

theorem pow_le_magnitude_iff {s : Scientific} (h : Leads s.digits) {n : ℤ} :
    (10 : ℚ) ^ n ≤ s.magnitude ↔ n ≤ s.exponent := by
  obtain ⟨hlow, hup⟩ := magnitude_bounds h
  constructor
  · intro hn
    have := (zpow_lt_zpow_iff_right₀ (by norm_num : (1 : ℚ) < 10)).mp (hn.trans_lt hup)
    omega
  · intro hn
    exact (zpow_le_zpow_right₀ (by norm_num) hn).trans hlow

/-- Digits that do not begin with a zero are not the number zero. -/
theorem isZero_of_leads {s : Scientific} (h : Leads s.digits) : s.isZero = false := by
  obtain ⟨d, rest, heq, hd⟩ := h
  rw [isZero, heq]
  simp [hd]

theorem standard_of_leads {s : Scientific} (h : Leads s.digits) :
    s.standard = signed s.negative
      (if -6 ≤ s.exponent ∧ s.exponent ≤ 20 then placePoint s.digits (s.exponent + 1)
       else mantissa s.digits ++ 'e' :: signedExponent s.exponent) := by
  rw [standard, isZero_of_leads h]
  rfl

end Scientific

namespace Binary

variable {x : Binary}

theorem coefficient_shortest_ne_zero (hx : x.Canonical) (h0 : x.m ≠ 0) :
    x.shortest.coefficient ≠ 0 := by
  intro hzero
  have hrounds := x.roundsFrom_shortest
  rw [Dec.value, hzero, Nat.cast_zero, zero_mul] at hrounds
  exact h0 (hx.m_eq_zero hrounds)

/-- The digits of a value: no zeros in front or at the end, and what they stand for reads
back. -/
theorem ofBinary_spec (hx : x.Canonical) (h0 : x.m ≠ 0) :
    Leads (Scientific.ofBinary x).digits ∧
      Scientific.trim (Scientific.ofBinary x).digits = (Scientific.ofBinary x).digits ∧
      (Scientific.ofBinary x).negative = x.negative ∧
      (Scientific.ofBinary x).magnitude = x.shortest.value := by
  have hc := coefficient_shortest_ne_zero hx h0
  rw [Scientific.ofBinary, if_neg h0]
  exact ⟨Scientific.leads_trim (leads_numeral hc), Scientific.trim_trim _, rfl,
    Scientific.magnitude_ofDec x.negative _⟩

/-- **Up to fifteen digits that read back are the digits of the value**, without the zeros
at their end. -/
theorem ofBinary_eq (hm : 2 ^ 52 ≤ x.m) {ds : List Digit} (hds : Leads ds)
    (hlength : ds.length ≤ 15) {e : ℤ}
    (h : x.RoundsFrom (Scientific.magnitude ⟨x.negative, ds, e⟩)) :
    Scientific.ofBinary x = ⟨x.negative, Scientific.trim ds, e⟩ := by
  have hlt : numeralValue ds < 10 ^ 15 :=
    lt_of_lt_of_le (numeralValue_lt ds) (Nat.pow_le_pow_right (by norm_num) hlength)
  have hshortest := shortest_value hm hlt h
  have hform := Scientific.ofDec_eq_of_value x.negative
    (d := ⟨numeralValue ds, e + 1 - ds.length⟩) hds.numeralValue_pos.ne' hshortest.symm
  rw [Scientific.ofBinary, if_neg (by omega), ← hform,
    Scientific.ofDec_numeralValue x.negative hds]
  congr 1
  ring

end Binary

theorem ofFloat_of_finite {x : Float} {a : Binary} (hx : Parts.ofFloat x = .finite a) :
    Scientific.ofFloat x = .ofBinary a := by
  rw [Scientific.ofFloat, hx]

/-- Up to fifteen digits that a number is read from are its name, without the zeros at
their end. -/
theorem ofFloat_of_digits {x : Float} {a : Binary} (hx : Parts.ofFloat x = .finite a)
    {ds : List Digit} (hds : Leads ds) (hlength : ds.length ≤ 15) {e : ℤ} (he : -9 ≤ e)
    (h : a.RoundsFrom (Scientific.magnitude ⟨a.negative, ds, e⟩)) :
    Scientific.ofFloat x = ⟨a.negative, Scientific.trim ds, e⟩ := by
  have hlow : (10 : ℚ) ^ e ≤ Scientific.magnitude ⟨a.negative, ds, e⟩ :=
    (Scientific.magnitude_bounds (s := ⟨a.negative, ds, e⟩) hds).1
  have hmin : (10 : ℚ) ^ (-9 : ℤ) ≤ 10 ^ e := zpow_le_zpow_right₀ (by norm_num) he
  have hm := (canonical_of_ofFloat hx).normal_of_le h (by norm_num at hmin ⊢; linarith)
  rw [ofFloat_of_finite hx]
  exact Binary.ofBinary_eq hm hds hlength h

end PocketCalc.Decimal
