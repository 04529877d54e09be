import Mathlib.Algebra.Order.Field.Power
import Mathlib.Tactic.FieldSimp
import Mathlib.Tactic.Linarith
import Mathlib.Tactic.NormNum
import Mathlib.Tactic.Positivity
import Mathlib.Tactic.Ring
import PocketCalc.Decimal.Shortest

/-!
# The reals that round to a value

The exact integer comparisons of the decoding are comparisons of rational numbers, and
the interval of a finite value is a set of rationals. On the values that occur the
intervals follow each other without overlap, so that a number lies in one of them only
and a larger number never in an earlier one.

* `Binary.Canonical` — the finite values that the bits can hold.
* `Binary.RoundsFrom` — a rational number lies in the interval of a value;
  `Binary.readsBack_iff` says that this is what `readsBack` decides.
* `Binary.Canonical.lt_of_before` — **intervals do not overlap.**
* `Binary.Canonical.magnitude_mono` — rounding keeps the order.
* `Binary.RoundsFrom.abs_sub_le` — rounding is off by half a unit in the last place.
-/

namespace PocketCalc.Decimal

/-! ## Values of the two notations -/

/-- The number that a decimal stands for. -/
def Dec.value (d : Dec) : ℚ :=
  d.coefficient * 10 ^ d.exponent

/-- A finite value without its sign. -/
def Binary.magnitude (x : Binary) : ℚ :=
  x.m * 2 ^ x.q

theorem Binary.magnitude_nonneg (x : Binary) : 0 ≤ x.magnitude := by
  unfold magnitude
  positivity

/-- A power as the quotient of two powers with natural exponents. -/
theorem zpow_mul_pow_toNat {b : ℚ} (hb : b ≠ 0) (e : ℤ) :
    b ^ e * b ^ (-e).toNat = b ^ e.toNat := by
  rw [← zpow_natCast, ← zpow_natCast, ← zpow_add₀ hb]
  congr 1
  omega

theorem decimal_mul_denominators (c : ℕ) (e j : ℤ) :
    (c : ℚ) * 10 ^ e * (10 ^ (-e).toNat * 2 ^ (-j).toNat) =
      ((c * 10 ^ e.toNat * 2 ^ (-j).toNat : ℕ) : ℚ) := by
  push_cast
  rw [← zpow_mul_pow_toNat (by norm_num) e]
  ring

theorem binary_mul_denominators (n : ℕ) (e j : ℤ) :
    (n : ℚ) * 2 ^ j * (10 ^ (-e).toNat * 2 ^ (-j).toNat) =
      ((n * 2 ^ j.toNat * 10 ^ (-e).toNat : ℕ) : ℚ) := by
  push_cast
  rw [← zpow_mul_pow_toNat (by norm_num) j]
  ring

theorem decimalLe_iff {c : ℕ} {e : ℤ} {n : ℕ} {j : ℤ} :
    decimalLe c e n j = true ↔ (c : ℚ) * 10 ^ e ≤ n * 2 ^ j := by
  have hpos : (0 : ℚ) < 10 ^ (-e).toNat * 2 ^ (-j).toNat := by positivity
  rw [← mul_le_mul_iff_of_pos_right hpos, decimal_mul_denominators, binary_mul_denominators,
    Nat.cast_le]
  simp [decimalLe]

theorem binaryLe_iff {n : ℕ} {j : ℤ} {c : ℕ} {e : ℤ} :
    binaryLe n j c e = true ↔ (n : ℚ) * 2 ^ j ≤ c * 10 ^ e := by
  have hpos : (0 : ℚ) < 10 ^ (-e).toNat * 2 ^ (-j).toNat := by positivity
  rw [← mul_le_mul_iff_of_pos_right hpos, decimal_mul_denominators, binary_mul_denominators,
    Nat.cast_le]
  simp [binaryLe]

namespace Binary

theorem atLeast_iff {x : Binary} {n : ℕ} : x.atLeast n = true ↔ (n : ℚ) ≤ x.magnitude := by
  rw [atLeast, decimalLe_iff, zpow_zero, mul_one, magnitude]

/-! ## Intervals -/

/-- The lower end of the interval of a value, in quarters of its last place. -/
def lowerQuarters (x : Binary) : ℕ :=
  if x.narrowBelow then 4 * x.m - 1 else 4 * x.m - 2

/-- The upper end of the interval of a value, in quarters of its last place. -/
def upperQuarters (x : Binary) : ℕ :=
  4 * x.m + 2

/-- A number lies in the interval of a value: the ends belong to it if the value is even. -/
def RoundsFrom (x : Binary) (v : ℚ) : Prop :=
  if x.m % 2 = 0 then
    x.lowerQuarters * 2 ^ (x.q - 2) ≤ v ∧ v ≤ x.upperQuarters * 2 ^ (x.q - 2)
  else
    x.lowerQuarters * 2 ^ (x.q - 2) < v ∧ v < x.upperQuarters * 2 ^ (x.q - 2)

/-- The reading back is the test for the interval. -/
theorem readsBack_iff {x : Binary} {d : Dec} : x.readsBack d = true ↔ x.RoundsFrom d.value := by
  unfold readsBack RoundsFrom lowerQuarters upperQuarters Dec.value
  by_cases heven : x.m % 2 = 0
  · simp only [heven, if_true, Bool.and_eq_true, binaryLe_iff, decimalLe_iff]
  · simp only [heven, if_false, Bool.and_eq_true, Bool.not_eq_true', ← Bool.not_eq_true,
      binaryLe_iff, decimalLe_iff, not_le]

variable {x y : Binary} {v w : ℚ}

theorem RoundsFrom.bounds (h : x.RoundsFrom v) :
    x.lowerQuarters * 2 ^ (x.q - 2) ≤ v ∧ v ≤ x.upperQuarters * 2 ^ (x.q - 2) := by
  unfold RoundsFrom at h
  split at h
  · exact h
  · exact ⟨h.1.le, h.2.le⟩

/-- An odd value does not have the ends of its interval. -/
theorem RoundsFrom.strict (h : x.RoundsFrom v) (hodd : x.m % 2 ≠ 0) :
    x.lowerQuarters * 2 ^ (x.q - 2) < v ∧ v < x.upperQuarters * 2 ^ (x.q - 2) := by
  unfold RoundsFrom at h
  rwa [if_neg hodd] at h

/-- A power of two in quarters. -/
theorem two_zpow_eq_quarters (q : ℤ) : (2 : ℚ) ^ q = 4 * 2 ^ (q - 2) := by
  rw [zpow_sub₀ (by norm_num : (2 : ℚ) ≠ 0)]
  norm_num
  ring

/-- A value in quarters of its last place. -/
theorem magnitude_eq_quarters (x : Binary) : x.magnitude = (4 * x.m : ℕ) * 2 ^ (x.q - 2) := by
  rw [magnitude, two_zpow_eq_quarters]
  push_cast
  ring

/-- The interval in units of the last place. -/
theorem roundsFrom_iff_scaled :
    x.RoundsFrom v ↔
      if x.m % 2 = 0 then
        (x.lowerQuarters : ℚ) ≤ 4 * (v / 2 ^ x.q) ∧ 4 * (v / 2 ^ x.q) ≤ x.upperQuarters
      else
        (x.lowerQuarters : ℚ) < 4 * (v / 2 ^ x.q) ∧ 4 * (v / 2 ^ x.q) < x.upperQuarters := by
  have hunit : (0 : ℚ) < 2 ^ (x.q - 2) := by positivity
  have hscaled : 4 * (v / 2 ^ x.q) = v / 2 ^ (x.q - 2) := by
    rw [two_zpow_eq_quarters x.q]
    field_simp
  rw [RoundsFrom, hscaled, le_div_iff₀ hunit, div_le_iff₀ hunit, lt_div_iff₀ hunit,
    div_lt_iff₀ hunit]

/-- Every value rounds to itself. -/
theorem roundsFrom_magnitude (x : Binary) : x.RoundsFrom x.magnitude := by
  have hunit : (0 : ℚ) < 2 ^ (x.q - 2) := by positivity
  have hlower : x.lowerQuarters ≤ 4 * x.m := by unfold lowerQuarters; split <;> omega
  have hupper : 4 * x.m < x.upperQuarters := by unfold upperQuarters; omega
  rw [magnitude_eq_quarters]
  unfold RoundsFrom
  split
  · constructor
    · gcongr
    · gcongr
  · next hodd =>
    have hlower' : x.lowerQuarters < 4 * x.m := by unfold lowerQuarters; split <;> omega
    constructor
    · gcongr
    · gcongr

/-! ## Values that occur -/

/-- What the bits can hold: fifty-three binary digits, all of them used above the range of
the subnormal values, and a narrow gap below the powers of two. -/
structure Canonical (x : Binary) : Prop where
  m_lt : x.m < 2 ^ 53
  le_q : -1074 ≤ x.q
  q_le : x.q ≤ 971
  normal : 2 ^ 52 ≤ x.m ∨ x.q = -1074
  narrow : x.narrowBelow = decide (x.m = 2 ^ 52 ∧ x.q ≠ -1074)

/-- The order of the values, read off exponent and digits. -/
def Before (x y : Binary) : Prop :=
  x.q < y.q ∨ x.q = y.q ∧ x.m < y.m

theorem before_or_before (x y : Binary) : x.Before y ∨ y.Before x ∨ x.m = y.m ∧ x.q = y.q := by
  unfold Before
  omega

/-- The ends of two intervals with the same last place. -/
theorem upperQuarters_le_of_m_lt (h : x.m < y.m) :
    x.upperQuarters ≤ y.lowerQuarters ∧
      (x.m % 2 = 0 → y.m % 2 = 0 → x.upperQuarters < y.lowerQuarters) := by
  unfold upperQuarters lowerQuarters
  split <;> omega

/-- Below the next larger last place the interval ends at half of what the other begins
with. -/
theorem Canonical.upperQuarters_le_of_q_lt (hx : x.Canonical) (hy : y.Canonical)
    (h : x.q < y.q) :
    x.upperQuarters ≤ y.lowerQuarters * 2 ∧
      (x.m % 2 = 0 → x.upperQuarters < y.lowerQuarters * 2) := by
  have hxm := hx.m_lt
  have hxq := hx.le_q
  have hnormal := hy.normal
  have hnarrow := hy.narrow
  unfold upperQuarters lowerQuarters
  split
  · omega
  · next hwide =>
    have hne : ¬ (y.m = 2 ^ 52 ∧ y.q ≠ -1074) := by simpa [hwide] using hnarrow
    omega

/-- The ends of the intervals of two values, one before the other. -/
theorem Canonical.upper_le_lower (hx : x.Canonical) (hy : y.Canonical) (h : x.Before y) :
    x.upperQuarters * (2 : ℚ) ^ (x.q - 2) ≤ y.lowerQuarters * 2 ^ (y.q - 2) ∧
      (x.m % 2 = 0 → y.m % 2 = 0 →
        x.upperQuarters * (2 : ℚ) ^ (x.q - 2) < y.lowerQuarters * 2 ^ (y.q - 2)) := by
  have hunit : (0 : ℚ) < 2 ^ (x.q - 2) := by positivity
  rcases h with hq | ⟨hq, hm⟩
  · -- a larger last place is at least twice as large
    obtain ⟨hle, hlt⟩ := hx.upperQuarters_le_of_q_lt hy hq
    have hdouble : (2 : ℚ) * 2 ^ (x.q - 2) ≤ 2 ^ (y.q - 2) := by
      rw [mul_comm, ← zpow_add_one₀ (by norm_num : (2 : ℚ) ≠ 0)]
      exact zpow_le_zpow_right₀ (by norm_num) (by omega)
    have hlower : (y.lowerQuarters * 2 : ℕ) * (2 : ℚ) ^ (x.q - 2) ≤
        y.lowerQuarters * 2 ^ (y.q - 2) := by
      push_cast
      rw [mul_assoc]
      gcongr
    constructor
    · refine le_trans ?_ hlower
      gcongr
    · intro heven _
      refine lt_of_lt_of_le ?_ hlower
      have := hlt heven
      gcongr
  · obtain ⟨hle, hlt⟩ := upperQuarters_le_of_m_lt hm
    rw [← hq]
    constructor
    · gcongr
    · intro heven heven'
      have := hlt heven heven'
      gcongr

/-- **Intervals do not overlap**: a number in the interval of an earlier value is smaller. -/
theorem Canonical.lt_of_before (hx : x.Canonical) (hy : y.Canonical) (h : x.Before y)
    (hv : x.RoundsFrom v) (hw : y.RoundsFrom w) : v < w := by
  obtain ⟨hle, hlt⟩ := hx.upper_le_lower hy h
  have hvb := hv.bounds
  have hwb := hw.bounds
  by_cases hxodd : x.m % 2 = 0
  · by_cases hyodd : y.m % 2 = 0
    · have := hlt hxodd hyodd
      linarith
    · have := (hw.strict hyodd).1
      linarith
  · have := (hv.strict hxodd).2
    linarith

/-- A number rounds to one value only. -/
theorem Canonical.eq_of_roundsFrom (hx : x.Canonical) (hy : y.Canonical)
    (hv : x.RoundsFrom v) (hw : y.RoundsFrom v) : x.m = y.m ∧ x.q = y.q := by
  rcases x.before_or_before y with h | h | h
  · exact absurd (hx.lt_of_before hy h hv hw) (lt_irrefl v)
  · exact absurd (hy.lt_of_before hx h hw hv) (lt_irrefl v)
  · exact h

/-- The nearest value is determined by the number and its sign. -/
theorem Canonical.ext (hx : x.Canonical) (hy : y.Canonical) (hsign : x.negative = y.negative)
    (hv : x.RoundsFrom v) (hw : y.RoundsFrom v) : x = y := by
  obtain ⟨hm, hq⟩ := hx.eq_of_roundsFrom hy hv hw
  have hnarrow : x.narrowBelow = y.narrowBelow := by rw [hx.narrow, hy.narrow, hm, hq]
  cases x
  cases y
  simp_all

/-- Zero rounds to zero only. -/
theorem Canonical.m_eq_zero (hx : x.Canonical) (h : x.RoundsFrom 0) : x.m = 0 := by
  have hzero : (⟨false, 0, -1074, false⟩ : Binary).Canonical :=
    ⟨by norm_num, by norm_num, by norm_num, .inr rfl, by simp⟩
  have hself := (⟨false, 0, -1074, false⟩ : Binary).roundsFrom_magnitude
  rw [magnitude, Nat.cast_zero, zero_mul] at hself
  exact (hx.eq_of_roundsFrom hzero h hself).1

/-- So a multiple that rounds to another value is not the one by zero. -/
theorem Canonical.one_le_multiple (hx : x.Canonical) (h0 : x.m ≠ 0) {k : ℕ} {e : ℤ}
    (h : x.RoundsFrom (k * 10 ^ e)) : (1 : ℚ) ≤ k := by
  have hk : k ≠ 0 := by
    rintro rfl
    rw [Nat.cast_zero, zero_mul] at h
    exact h0 (hx.m_eq_zero h)
  exact_mod_cast Nat.one_le_iff_ne_zero.mpr hk

/-- Rounding keeps the order. -/
theorem Canonical.magnitude_mono (hx : x.Canonical) (hy : y.Canonical) (hv : x.RoundsFrom v)
    (hw : y.RoundsFrom w) (h : v ≤ w) : x.magnitude ≤ y.magnitude := by
  rcases x.before_or_before y with hb | hb | ⟨hm, hq⟩
  · exact (hx.lt_of_before hy hb x.roundsFrom_magnitude y.roundsFrom_magnitude).le
  · exact absurd (hy.lt_of_before hx hb hw hv) (not_lt.mpr h)
  · rw [magnitude, magnitude, hm, hq]

/-! ## The error of rounding -/

/-- Rounding is off by half a unit in the last place at most. -/
theorem RoundsFrom.abs_sub_le (h : x.RoundsFrom v) : |v - x.magnitude| ≤ 2 ^ x.q / 2 := by
  obtain ⟨hlower, hupper⟩ := h.bounds
  have hunit : (0 : ℚ) < 2 ^ (x.q - 2) := by positivity
  have hquarters : (4 * x.m : ℚ) ≤ x.lowerQuarters + 2 := by
    have : 4 * x.m ≤ x.lowerQuarters + 2 := by unfold lowerQuarters; split <;> omega
    exact_mod_cast this
  have hmagnitude := x.magnitude_eq_quarters
  push_cast at hmagnitude
  rw [hmagnitude, two_zpow_eq_quarters x.q, abs_sub_le_iff]
  unfold upperQuarters at hupper
  push_cast at hupper
  constructor
  · linarith
  · nlinarith

/-- Below a power of two the unit in the last place is fifty-three places smaller. -/
theorem Canonical.unit_le (hx : x.Canonical) {n : ℤ} (hn : -1021 ≤ n) (h : x.magnitude < 2 ^ n) :
    (2 : ℚ) ^ x.q ≤ 2 ^ (n - 53) := by
  refine zpow_le_zpow_right₀ (by norm_num) ?_
  rcases hx.normal with hm | hq
  · have hm' : (2 ^ (52 : ℤ) : ℚ) ≤ x.m := by exact_mod_cast hm
    have hlt : (2 : ℚ) ^ (52 + x.q) < 2 ^ n := by
      rw [zpow_add₀ (by norm_num : (2 : ℚ) ≠ 0)]
      refine lt_of_le_of_lt ?_ h
      rw [magnitude]
      gcongr
    have := (zpow_lt_zpow_iff_right₀ (by norm_num : (1 : ℚ) < 2)).mp hlt
    omega
  · omega

/-- The error of rounding below a power of two. -/
theorem Canonical.abs_sub_le (hx : x.Canonical) (hv : x.RoundsFrom v) {n : ℤ} (hn : -1021 ≤ n)
    (h : x.magnitude < 2 ^ n) : |v - x.magnitude| ≤ 2 ^ (n - 54) := by
  have hunit := hx.unit_le hn h
  have hhalf : (2 : ℚ) ^ (n - 53) = 2 ^ (n - 54) * 2 := by
    rw [← zpow_add_one₀ (by norm_num : (2 : ℚ) ≠ 0)]
    congr 1
    ring
  have := hv.abs_sub_le
  linarith

/-- A normal value is more than `2^52` units in its last place. -/
theorem unit_le_magnitude (h : 2 ^ 52 ≤ x.m) : 2 ^ 52 * 2 ^ x.q ≤ x.magnitude := by
  have hm : (2 ^ 52 : ℚ) ≤ x.m := by exact_mod_cast h
  rw [magnitude]
  gcongr

theorem ten_zpow_neg_nine : (10 : ℚ) ^ (-9 : ℤ) = 1 / 10 ^ 9 := by
  norm_num

/-- The values that results have are not subnormal. -/
theorem Canonical.normal_of_le (hx : x.Canonical) (hv : x.RoundsFrom v) (h : 1 / 10 ^ 9 ≤ v) :
    2 ^ 52 ≤ x.m := by
  rcases hx.normal with hm | hq
  · exact hm
  · exfalso
    have hm := hx.m_lt
    have hupper : x.upperQuarters ≤ 2 ^ 56 := by unfold upperQuarters; omega
    have hsmall : v ≤ (2 ^ 56 : ℕ) * 2 ^ (-86 : ℤ) := by
      calc v ≤ x.upperQuarters * 2 ^ (x.q - 2) := hv.bounds.2
        _ ≤ (2 ^ 56 : ℕ) * 2 ^ (-86 : ℤ) := by
          rw [hq]
          gcongr <;> norm_num
    norm_num at h hsmall
    linarith

end Binary

end PocketCalc.Decimal
