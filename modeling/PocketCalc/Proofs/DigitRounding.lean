import Mathlib.Data.Rat.Floor
import PocketCalc.Proofs.FloatRounding
import PocketCalc.Proofs.ResultText
import PocketCalc.Proofs.ScientificForm

/-!
# Digits rounded for exponential notation

Exponential notation rounds the digits of a number to a fixed count. This rounds the number
itself, a half upwards; and rounding the digits that are left without the zeros at their end
brings these zeros back.

* `leads_roundDigits`, `roundDigits_exponent` — the form of the rounded digits.
* `magnitude_roundDigits` — **the number they stand for**, carry included.
* `roundDigits_trim` — **rounding the rounded digits again.**
-/

namespace PocketCalc.Decimal

/-- Digits that do not begin with a zero do not after the carry either, which may run off
the front. -/
theorem Leads.increment {ds : List Digit} (h : Leads ds) :
    (increment ds).1 = true ∨ Leads (increment ds).2 := by
  obtain ⟨d, rest, rfl, hd⟩ := h
  unfold Decimal.increment
  split
  · exact .inr ⟨d, _, rfl, hd⟩
  · split
    · exact .inl rfl
    · next h9 =>
      refine .inr ⟨d + 1, _, rfl, ?_⟩
      revert d
      decide

variable {ds : List Digit} {n : ℕ}

theorem leads_roundDigits (h : Leads ds) (e : ℤ) (hn : 0 < n) : Leads (roundDigits ds e n).1 := by
  unfold roundDigits
  split
  · exact h.append _
  · split
    · exact h.take hn
    · have hincrement := (h.take hn).increment
      split
      · next hkept => simpa [hkept] using hincrement
      · next kept _ =>
        have hone : Leads (1 :: kept) := ⟨1, kept, rfl, by decide⟩
        exact hone.take hn

/-- The carry makes the exponent one larger. -/
theorem roundDigits_exponent (ds : List Digit) (e : ℤ) (n : ℕ) :
    (roundDigits ds e n).2 = e ∨ (roundDigits ds e n).2 = e + 1 := by
  unfold roundDigits
  split
  · exact .inl rfl
  · split
    · exact .inl rfl
    · split
      · exact .inl rfl
      · exact .inr rfl

/-! ## The rounded number -/

/-- The magnitude rounded to `n` digits: the nearest multiple of the unit of the last of
them, the upper of two equally near. -/
def Scientific.roundedMagnitude (s : Scientific) (n : ℕ) : ℚ :=
  ⌊s.magnitude / 10 ^ (s.exponent + 1 - n) + 1 / 2⌋ * 10 ^ (s.exponent + 1 - n)

theorem Scientific.roundedMagnitude_nonneg (s : Scientific) (n : ℕ) :
    0 ≤ s.roundedMagnitude n := by
  have hmagnitude : 0 ≤ s.magnitude := by
    unfold magnitude
    positivity
  have hfloor : 0 ≤ ⌊s.magnitude / 10 ^ (s.exponent + 1 - n) + 1 / 2⌋ :=
    Int.floor_nonneg.mpr (by positivity)
  have hfloor' : (0 : ℚ) ≤ (⌊s.magnitude / 10 ^ (s.exponent + 1 - n) + 1 / 2⌋ : ℤ) := by
    exact_mod_cast hfloor
  unfold roundedMagnitude
  positivity

theorem Scientific.roundedMagnitude_eq {s : Scientific} {c : ℕ}
    (hlow : (c - 1 / 2 : ℚ) * 10 ^ (s.exponent + 1 - n) ≤ s.magnitude)
    (hup : s.magnitude < (c + 1 / 2 : ℚ) * 10 ^ (s.exponent + 1 - n)) :
    s.roundedMagnitude n = c * 10 ^ (s.exponent + 1 - n) := by
  have hunit : (0 : ℚ) < 10 ^ (s.exponent + 1 - n) := by positivity
  have hfloor : ⌊s.magnitude / 10 ^ (s.exponent + 1 - n) + 1 / 2⌋ = (c : ℤ) := by
    rw [Int.floor_eq_iff, ← sub_le_iff_le_add, ← lt_sub_iff_add_lt, le_div_iff₀ hunit,
      div_lt_iff₀ hunit]
    push_cast
    exact ⟨hlow, hup.trans_eq (by ring)⟩
  rw [roundedMagnitude, hfloor, Int.cast_natCast]

/-- The digits kept, and the first that is not, are the number rounded down. -/
theorem take_bounds (negative : Bool) {next : Digit} {rest : List Digit}
    (hdrop : ds.drop n = next :: rest) (e : ℤ) :
    (numeralValue (ds.take n) + next.val / 10 : ℚ) * 10 ^ (e + 1 - n) ≤
        Scientific.magnitude ⟨negative, ds, e⟩ ∧
      Scientific.magnitude ⟨negative, ds, e⟩ <
        (numeralValue (ds.take n) + (next.val + 1) / 10 : ℚ) * 10 ^ (e + 1 - n) := by
  have hsplit : ds = ds.take n ++ [next] ++ rest := by
    rw [List.append_assoc, List.singleton_append, ← hdrop, List.take_append_drop]
  have hplace : e + 1 - ds.length + rest.length = e - n := by
    have := congrArg List.length hdrop
    simp at this
    omega
  have hten : (10 : ℚ) ^ (e + 1 - n) = 10 ^ (e - n) * 10 := by
    rw [← zpow_add_one₀ (by norm_num : (10 : ℚ) ≠ 0)]
    congr 1
    ring
  obtain ⟨hlow, hup⟩ := numeralValue_front_bounds (ds.take n ++ [next]) rest (e + 1 - ds.length)
  rw [← hsplit, hplace, numeralValue_append, numeralValue_cons] at hlow hup
  push_cast [List.length_singleton, List.length_nil, numeralValue_nil] at hlow hup
  rw [hten]
  constructor
  · refine le_trans (le_of_eq ?_) hlow
    ring
  · refine lt_of_lt_of_eq hup ?_
    ring

/-- Only nines make the carry run off the front, and they leave zeros. -/
theorem increment_carry {kept : List Digit} (h : increment ds = (true, kept)) :
    numeralValue ds + 1 = 10 ^ ds.length ∧ numeralValue kept = 0 := by
  have hvalue := numeralValue_increment ds
  have hnine := numeralValue_lt ds
  simp only [h, if_true] at hvalue
  omega

/-- A one in front of zeros. -/
theorem numeralValue_one_zeros {kept : List Digit} (h : numeralValue kept = 0) {k : ℕ}
    (hk : k ≤ kept.length) : numeralValue ((1 :: kept).take (k + 1)) = 10 ^ k := by
  have hzeros : numeralValue (kept.take k) = 0 := by
    rw [← List.take_append_drop k kept, numeralValue_append] at h
    have hpos : 0 < 10 ^ (kept.drop k).length := by positivity
    exact (Nat.mul_eq_zero.mp (Nat.add_eq_zero_iff.mp h).1).resolve_right hpos.ne'
  rw [List.take_succ_cons, numeralValue_cons, hzeros, List.length_take_of_le hk]
  exact one_mul _

/-- **Rounding the digits rounds the number.** -/
theorem magnitude_roundDigits (negative : Bool) (ds : List Digit) (e : ℤ) (hn : 0 < n) :
    Scientific.magnitude ⟨negative, (roundDigits ds e n).1, (roundDigits ds e n).2⟩ =
      Scientific.roundedMagnitude ⟨negative, ds, e⟩ n := by
  have hunit : (0 : ℚ) < 10 ^ (e + 1 - n) := by positivity
  -- it is enough to find the multiple of the unit
  have hcount : ∀ c : ℕ, (c - 1 / 2 : ℚ) * 10 ^ (e + 1 - n) ≤
        Scientific.magnitude ⟨negative, ds, e⟩ →
      Scientific.magnitude ⟨negative, ds, e⟩ < (c + 1 / 2 : ℚ) * 10 ^ (e + 1 - n) →
      Scientific.roundedMagnitude ⟨negative, ds, e⟩ n = c * 10 ^ (e + 1 - n) :=
    fun c hlow hup => Scientific.roundedMagnitude_eq (s := ⟨negative, ds, e⟩) hlow hup
  unfold roundDigits
  split
  · next hdrop =>
    -- all the digits are there, and zeros behind them
    have hshort := List.drop_eq_nil_iff.mp hdrop
    have hpad : (10 : ℚ) ^ (n - ds.length) * 10 ^ (e + 1 - n) = 10 ^ (e + 1 - ds.length) := by
      rw [← zpow_natCast, ← zpow_add₀ (by norm_num : (10 : ℚ) ≠ 0)]
      congr 1
      omega
    have hvalue : (numeralValue (ds ++ List.replicate (n - ds.length) 0) : ℚ) *
        10 ^ (e + 1 - n) = Scientific.magnitude ⟨negative, ds, e⟩ := by
      rw [numeralValue_append_zeros, Nat.cast_mul, Nat.cast_pow, Nat.cast_ofNat, mul_assoc, hpad]
      rfl
    have hlength : (ds ++ List.replicate (n - ds.length) 0).length = n := by
      rw [List.length_append, List.length_replicate]
      omega
    rw [hcount (numeralValue (ds ++ List.replicate (n - ds.length) 0)) (by linarith) (by linarith),
      Scientific.magnitude]
    simp only [hlength]
  · next next rest hdrop =>
    obtain ⟨hlow, hup⟩ := take_bounds negative hdrop e
    have hlength : (ds.take n).length = n := by
      have := congrArg List.length hdrop
      simp at this ⊢
      omega
    have hmore := length_increment (ds.take n)
    rw [hlength] at hmore
    split
    · next hnext =>
      -- less than half a unit is dropped
      have hfew : (next.val + 1 : ℚ) / 10 ≤ 1 / 2 := by
        have : next.val < 5 := hnext
        have : (next.val + 1 : ℚ) ≤ 5 := by exact_mod_cast this
        linarith
      have hnone : (0 : ℚ) ≤ next.val / 10 := by positivity
      rw [hcount (numeralValue (ds.take n)) ?_ ?_, Scientific.magnitude]
      · simp only [hlength]
      · refine le_trans (mul_le_mul_of_nonneg_right ?_ hunit.le) hlow
        linarith
      · refine lt_of_lt_of_le hup (mul_le_mul_of_nonneg_right ?_ hunit.le)
        linarith
    · next hnext =>
      -- half a unit or more makes one unit more
      have hmuch : (1 : ℚ) / 2 ≤ next.val / 10 := by
        have : 5 ≤ next.val := not_lt.mp hnext
        have : (5 : ℚ) ≤ next.val := by exact_mod_cast this
        linarith
      have hall : (next.val + 1 : ℚ) / 10 ≤ 1 := by
        have : (next.val + 1 : ℚ) ≤ 10 := by exact_mod_cast next.isLt
        linarith
      rw [hcount (numeralValue (ds.take n) + 1) ?_ ?_]
      · have hvalue := numeralValue_increment (ds.take n)
        split
        · next kept hkept =>
          simp only [hkept, Bool.false_eq_true, if_false, zero_add] at hvalue hmore
          rw [Scientific.magnitude]
          simp only [hmore, hvalue]
        · next kept hkept =>
          -- the digits kept were nines, and become a one and zeros
          obtain ⟨hnines, hzeros⟩ := increment_carry hkept
          simp only [hkept] at hmore
          obtain ⟨k, rfl⟩ := Nat.exists_eq_succ_of_ne_zero hn.ne'
          have hcarried : ((1 :: kept).take (k + 1)).length = k + 1 := by
            rw [List.length_take_of_le (by simp [hmore])]
          have hfull : (numeralValue (ds.take (k + 1)) + 1 : ℚ) = 10 ^ k * 10 := by
            rw [← pow_succ]
            exact_mod_cast hnines.trans (congrArg (10 ^ ·) hlength)
          have hnext : (10 : ℚ) ^ (e + 1 + 1 - (k + 1 : ℕ)) = 10 ^ (e + 1 - (k + 1 : ℕ)) * 10 := by
            rw [← zpow_add_one₀ (by norm_num : (10 : ℚ) ≠ 0)]
            congr 1
            ring
          rw [Scientific.magnitude]
          simp only [hcarried, numeralValue_one_zeros hzeros (k := k) (by omega), hnext]
          push_cast at hfull ⊢
          rw [hfull]
          ring
      · push_cast
        refine le_trans (mul_le_mul_of_nonneg_right ?_ hunit.le) hlow
        linarith
      · push_cast
        refine lt_of_lt_of_le hup (mul_le_mul_of_nonneg_right ?_ hunit.le)
        linarith

/-- So it goes up by half a unit at most. -/
theorem magnitude_roundDigits_le (negative : Bool) (ds : List Digit) (e : ℤ) (hn : 0 < n) :
    (numeralValue (roundDigits ds e n).1 - 1 / 2 : ℚ) * 10 ^ ((roundDigits ds e n).2 + 1 - n) ≤
      Scientific.magnitude ⟨negative, ds, e⟩ := by
  have hunit : (0 : ℚ) < 10 ^ (e + 1 - n) := by positivity
  have hrounded := magnitude_roundDigits negative ds e hn
  have hfloor := Int.floor_le (Scientific.magnitude ⟨negative, ds, e⟩ / 10 ^ (e + 1 - n) + 1 / 2)
  rw [← sub_le_iff_le_add, le_div_iff₀ hunit, sub_mul] at hfloor
  simp only [Scientific.magnitude, Scientific.roundedMagnitude, length_roundDigits] at hrounded hfloor ⊢
  have hlarger : (10 : ℚ) ^ (e + 1 - n) ≤ 10 ^ ((roundDigits ds e n).2 + 1 - n) := by
    refine zpow_le_zpow_right₀ (by norm_num) ?_
    rcases roundDigits_exponent ds e n with he | he <;> omega
  rw [sub_mul, hrounded]
  linarith

/-- **Rounding brings zeros at the end back.** -/
theorem roundDigits_trim (ds : List Digit) (e : ℤ) :
    roundDigits (Scientific.trim ds) e ds.length = (ds, e) := by
  obtain ⟨k, hk⟩ := Scientific.exists_zeros ds
  have hlength := congrArg List.length hk
  rw [List.length_append, List.length_replicate] at hlength
  have hdrop : (Scientific.trim ds).drop ds.length = [] :=
    List.drop_eq_nil_iff.mpr (by omega)
  have hzeros : ds.length - (Scientific.trim ds).length = k := by omega
  simp only [roundDigits, hdrop, hzeros, ← hk]

/-- Exponential notation of a number other than zero. -/
theorem Scientific.exponential_of_leads {s : Scientific} (h : Leads s.digits) (places : ℕ) :
    s.exponential places = signed s.negative
      (mantissa (roundDigits s.digits s.exponent (places + 1)).1 ++
        'e' :: signedExponent (roundDigits s.digits s.exponent (places + 1)).2) := by
  rw [exponential, isNegative, isZero_of_leads h, Bool.not_false, Bool.and_true]

/-- A number in exponential notation with the digits it was written with. -/
theorem Scientific.exponential_trim (negative : Bool) {ds : List Digit} (hds : Leads ds)
    (hlength : ds.length = 6) (e : ℤ) :
    Scientific.exponential ⟨negative, Scientific.trim ds, e⟩ 5 =
      signed negative (mantissa ds ++ 'e' :: signedExponent e) := by
  have hround : roundDigits (Scientific.trim ds) e (5 + 1) = (ds, e) := by
    have := roundDigits_trim ds e
    rwa [hlength] at this
  have hform := exponential_of_leads (s := ⟨negative, Scientific.trim ds, e⟩)
    (Scientific.leads_trim hds) 5
  rwa [hround] at hform

/-! ## Six digits in range -/

/-- The first infinite number has the six digits `179769`, and it is below the middle of
this number of six digits and the next one. -/
theorem overflowFrom_bounds :
    1797690 * (10 : ℚ) ^ (302 : ℤ) < overflowFrom ∧ overflowFrom ≤ 1797695 * 10 ^ (302 : ℤ) := by
  have hcast : overflowFrom = (((2 ^ 54 - 1) * 2 ^ 970 : ℕ) : ℚ) := by
    rw [overflowFrom, Nat.cast_mul, Nat.cast_pow, ← zpow_natCast]
    norm_num
  have hten : (10 : ℚ) ^ (302 : ℤ) = ((10 ^ 302 : ℕ) : ℚ) := by
    rw [Nat.cast_pow, ← zpow_natCast]
    rfl
  have hlow : 1797690 * 10 ^ 302 < (2 ^ 54 - 1) * 2 ^ 970 := by decide +kernel
  have hup : (2 ^ 54 - 1) * 2 ^ 970 ≤ 1797695 * 10 ^ 302 := by decide +kernel
  rw [hcast, hten]
  exact_mod_cast And.intro hlow hup

/-- A number in range has an exponent of up to three digits. -/
theorem Scientific.exponent_lt {s : Scientific} (h : Leads s.digits)
    (hrange : s.magnitude < overflowFrom) : s.exponent < 309 := by
  refine (zpow_lt_zpow_iff_right₀ (by norm_num : (1 : ℚ) < 10)).mp ?_
  refine (magnitude_bounds h).1.trans_lt (hrange.trans_le (overflowFrom_bounds.2.trans ?_))
  rw [show (309 : ℤ) = 302 + 7 from rfl, zpow_add₀ (by norm_num), mul_comm]
  gcongr
  norm_num

/-- Rounding to six digits does not lead out of the range. -/
theorem mul_lt_overflowFrom {n : ℕ} (hlow : 10 ^ 5 ≤ n) (hup : n < 10 ^ 6) {e : ℤ}
    (h : (n - 1 / 2 : ℚ) * 10 ^ e < overflowFrom) : n * (10 : ℚ) ^ e < overflowFrom := by
  obtain ⟨hbelow, habove⟩ := overflowFrom_bounds
  have hpos : (0 : ℚ) < 10 ^ (302 : ℤ) := by positivity
  have hstep : ∀ k : ℤ, (10 : ℚ) ^ (k + 1) = 10 ^ k * 10 := fun k => zpow_add_one₀ (by norm_num) k
  have hlowq : (10 ^ 5 : ℚ) ≤ n := by exact_mod_cast hlow
  have hupq : (n : ℚ) ≤ 10 ^ 6 := by exact_mod_cast hup.le
  rcases lt_trichotomy e 303 with he | rfl | he
  · -- all numbers of six digits are in range
    calc n * (10 : ℚ) ^ e ≤ 10 ^ 6 * 10 ^ (302 : ℤ) := by
          gcongr
          · norm_num
          · omega
      _ < 1797690 * 10 ^ (302 : ℤ) := by
          gcongr
          norm_num
      _ < overflowFrom := hbelow
  · rw [show (303 : ℤ) = 302 + 1 from rfl, hstep] at h ⊢
    generalize (10 : ℚ) ^ (302 : ℤ) = u at h hbelow habove hpos ⊢
    have hn : n ≤ 179769 := by
      by_contra hn
      have hnq : (179770 : ℚ) ≤ n := by exact_mod_cast not_le.mp hn
      have := mul_le_mul_of_nonneg_right hnq hpos.le
      linarith
    have hnq : (n : ℚ) ≤ 179769 := by exact_mod_cast hn
    have := mul_le_mul_of_nonneg_right hnq hpos.le
    linarith
  · -- and beyond none is
    have hpow : (10 : ℚ) ^ (302 + 1 + 1 : ℤ) ≤ 10 ^ e := zpow_le_zpow_right₀ (by norm_num) he
    rw [hstep, hstep] at hpow
    have hhalf : (10 ^ 5 - 1 : ℚ) ≤ n - 1 / 2 := by linarith
    have hlarge : (10 ^ 5 - 1 : ℚ) * (10 ^ (302 : ℤ) * 10 * 10) ≤ (n - 1 / 2) * 10 ^ e :=
      mul_le_mul hhalf hpow (by positivity) (by linarith)
    refine absurd h (not_lt.mpr (habove.trans (le_trans ?_ hlarge)))
    generalize (10 : ℚ) ^ (302 : ℤ) = u at hpos ⊢
    linarith only [hpos]

end PocketCalc.Decimal
