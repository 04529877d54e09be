import PocketCalc.Decimal.Literal
import PocketCalc.Proofs.FloatRounding

/-!
# Floating-point arithmetic is rounded exact arithmetic

Each operation gives the number that its exact result rounds to.

* `rounds_mul`, `rounds_div`, `rounds_add` — **multiplication, division and addition.**
* `rounds_nearest` — **reading a decimal.** Short decimals with a small exponent take a
  shortcut through one exact power of ten (`rounds_ofScientific_fast`).
* `Binary.Canonical.magnitude_eq` — what has at most fifty-three digits is not rounded.
* `Parts.Rounds.exists_finite` — below `overflowFrom` the result is finite.
-/

namespace PocketCalc.Decimal

open Float.Model (Format UnpackedFloat totalExponent)
open Float.Model.UnpackedFloat

/-! ## Signs and zeros -/

theorem signOf_mul (a b : Bool) : signOf a * signOf b = signOf (a != b) := by
  cases a <;> cases b <;> rfl

theorem signOf_div (a b : Bool) : signOf a / signOf b = signOf (a != b) := by
  cases a <;> cases b <;> rfl

theorem signOf_neg (a : Bool) : -signOf a = signOf (!a) := by
  cases a <;> rfl

/-- What rounds to zero. -/
theorem rounds_zero_of_le (negative : Bool) {v : ℚ} (hv : 0 ≤ v) (hle : v ≤ 2 ^ (-1075 : ℤ)) :
    (Parts.ofFloat (packed (.zero (signOf negative)))).Rounds negative v := by
  have hhalf : (2 : ℚ) ^ (-1075 : ℤ) = 2 ^ (-1074 - 2 : ℤ) * 2 :=
    zpow_add_one₀ (by norm_num) (-1076)
  rw [ofFloat_packed_zero]
  refine ⟨rfl, ?_⟩
  simp only [Binary.RoundsFrom, Binary.lowerQuarters, Binary.upperQuarters, Nat.zero_mod, if_true]
  constructor
  · simpa using hv
  · rw [hhalf, mul_comm] at hle
    exact_mod_cast hle

theorem rounds_zero (negative : Bool) :
    (Parts.ofFloat (packed (.zero (signOf negative)))).Rounds negative 0 :=
  rounds_zero_of_le negative le_rfl (by positivity)

theorem unpacked_of_zero {x : Binary} (h : x.m = 0) : x.unpacked = .zero (signOf x.negative) :=
  dif_pos h

theorem unpacked_of_ne {x : Binary} (h : x.m ≠ 0) :
    x.unpacked = .finite (signOf x.negative) x.m x.q (Nat.pos_of_ne_zero h) :=
  dif_neg h

theorem Binary.magnitude_of_zero {x : Binary} (h : x.m = 0) : x.magnitude = 0 := by
  simp [magnitude, h]

theorem Binary.m_ne_zero {x : Binary} (h : 0 < x.magnitude) : x.m ≠ 0 := by
  intro h0
  rw [magnitude_of_zero h0] at h
  exact lt_irrefl 0 h

/-- Packing what was unpacked gives the number back. -/
theorem ofFloat_packed_unpacked {x : Binary} (h : x.Canonical) :
    Parts.ofFloat (packed x.unpacked) = .finite x := by
  obtain ⟨negative, m, q, narrowBelow⟩ := x
  have hlt : m < 2 ^ 53 := h.m_lt
  have hnormal : 2 ^ 52 ≤ m ∨ q = -1074 := h.normal
  obtain rfl : narrowBelow = decide (m = 2 ^ 52 ∧ q ≠ -1074) := h.narrow
  by_cases h0 : m = 0
  · have hq : q = -1074 := by omega
    subst h0 hq
    rw [unpacked_of_zero rfl, ofFloat_packed_zero]
    rfl
  · rw [unpacked_of_ne h0, ofFloat_packed_finite negative _ hlt h.le_q hnormal, if_pos h.q_le]

/-! ## Negation -/

/-- The same value with the other sign. -/
def Binary.neg (x : Binary) : Binary :=
  { x with negative := !x.negative }

theorem Binary.Canonical.neg {x : Binary} (h : x.Canonical) : x.neg.Canonical :=
  ⟨h.m_lt, h.le_q, h.q_le, h.normal, h.narrow⟩

theorem ofFloat_neg {x : Float} {a : Binary} (h : Parts.ofFloat x = .finite a) :
    Parts.ofFloat (-x) = .finite a.neg := by
  have hneg : UnpackedFloat.neg a.unpacked = a.neg.unpacked := by
    by_cases h0 : a.m = 0
    · rw [unpacked_of_zero h0, unpacked_of_zero (x := a.neg) h0]
      exact congrArg _ (signOf_neg _)
    · rw [unpacked_of_ne h0, unpacked_of_ne (x := a.neg) h0]
      show UnpackedFloat.finite (-signOf a.negative) a.m a.q _ = _
      rw [signOf_neg]
      rfl
  have hpacked : -x = packed (UnpackedFloat.neg x.toModel.unpack) := rfl
  rw [hpacked, unpack_toModel, h, Parts.unpacked, hneg]
  exact ofFloat_packed_unpacked (canonical_of_ofFloat h).neg

theorem ofFloat_neg_infinite {x : Float} {negative : Bool}
    (h : Parts.ofFloat x = .infinite negative) : Parts.ofFloat (-x) = .infinite (!negative) := by
  have hpacked : -x = packed (UnpackedFloat.neg x.toModel.unpack) := rfl
  rw [hpacked, unpack_toModel, h, Parts.unpacked]
  show Parts.ofFloat (packed (.infinity (-signOf negative))) = _
  rw [signOf_neg, ofFloat_packed_infinity]

/-! ## Multiplication -/

theorem log2_mul_le {m n : ℕ} (hm : m ≠ 0) (hn : n ≠ 0) : m.log2 + n.log2 ≤ (m * n).log2 := by
  rw [Nat.le_log2 (Nat.mul_ne_zero hm hn), pow_add]
  exact Nat.mul_le_mul (Nat.log2_self_le hm) (Nat.log2_self_le hn)

/-- The product of unpacked numbers with enough digits. -/
theorem rounds_mul_unpacked (a b : Bool) {m n : ℕ} {e f : ℤ} (hm : 0 < m) (hn : 0 < n)
    (henough : 52 ≤ (m * n).log2 ∨ e + f ≤ -1074) :
    (Parts.ofFloat (packed (UnpackedFloat.mul Format.binary64 (.finite (signOf a) m e hm)
      (.finite (signOf b) n f hn)))).Rounds (a != b) (m * 2 ^ e * (n * 2 ^ f)) := by
  show (Parts.ofFloat (packed (roundWithAccuracy Format.binary64 (signOf a * signOf b) (m * n)
    (e + f) .exact))).Rounds _ _
  rw [signOf_mul]
  refine rounds_roundWithAccuracy _ ?_ henough
  have hunit : (2 : ℚ) ^ (e + f) ≠ 0 := by positivity
  have hvalue : (m * 2 ^ e * (n * 2 ^ f) : ℚ) / 2 ^ (e + f) = (m * n : ℕ) := by
    rw [div_eq_iff hunit, zpow_add₀ (by norm_num : (2 : ℚ) ≠ 0)]
    push_cast
    ring
  rw [hvalue]
  rfl

theorem rounds_mul_zero (a b : Bool) :
    (Parts.ofFloat (packed (.zero (signOf a * signOf b)))).Rounds (a != b) 0 := by
  rw [signOf_mul]
  exact rounds_zero _

/-- **Multiplication rounds the product.** -/
theorem rounds_mul {x y : Float} {a b : Binary} (hx : Parts.ofFloat x = .finite a)
    (hy : Parts.ofFloat y = .finite b) :
    (Parts.ofFloat (x * y)).Rounds (a.negative != b.negative) (a.magnitude * b.magnitude) := by
  have hpacked : x * y = packed (UnpackedFloat.mul Format.binary64 x.toModel.unpack
    y.toModel.unpack) := rfl
  have ha := canonical_of_ofFloat hx
  have hb := canonical_of_ofFloat hy
  rw [hpacked, unpack_toModel, unpack_toModel, hx, hy, Parts.unpacked, Parts.unpacked]
  by_cases ha0 : a.m = 0
  · rw [unpacked_of_zero ha0, Binary.magnitude_of_zero ha0, zero_mul]
    by_cases hb0 : b.m = 0
    · rw [unpacked_of_zero hb0]
      exact rounds_mul_zero _ _
    · rw [unpacked_of_ne hb0]
      exact rounds_mul_zero _ _
  · by_cases hb0 : b.m = 0
    · rw [unpacked_of_ne ha0, unpacked_of_zero hb0, Binary.magnitude_of_zero hb0, mul_zero]
      exact rounds_mul_zero _ _
    · rw [unpacked_of_ne ha0, unpacked_of_ne hb0]
      refine rounds_mul_unpacked _ _ _ _ ?_
      have hlog := log2_mul_le ha0 hb0
      have hale := ha.le_q
      have hble := hb.le_q
      have haq := ha.normal.imp_left (Nat.le_log2 ha0).mpr
      have hbq := hb.normal.imp_left (Nat.le_log2 hb0).mpr
      omega

/-! ## Division -/

/-- A remainder says how far the quotient goes on. -/
theorem represents_quotient (n : ℕ) {d : ℕ} (hd : 0 < d) :
    Represents (ExtendedMantissa.ofMantissaAndAccuracy (n / d) (accuracyOfFraction (n % d) d))
      (n / d : ℚ) := by
  have hpos : (0 : ℚ) < d := by exact_mod_cast hd
  have hlt := Nat.mod_lt n hd
  have hsplit : (n : ℚ) / d = (n / d : ℕ) + (n % d : ℕ) / (d : ℚ) := by
    rw [← mul_right_inj' hpos.ne', mul_add, mul_div_cancel₀ _ hpos.ne',
      mul_div_cancel₀ _ hpos.ne']
    exact_mod_cast (Nat.div_add_mod n d).symm
  rw [hsplit]
  generalize n / d = whole
  generalize n % d = rest at hlt
  unfold accuracyOfFraction
  split
  · next h0 =>
    subst h0
    simp [Represents, ExtendedMantissa.ofMantissaAndAccuracy]
  · next h0 =>
    have hrest : (0 : ℚ) < rest := by exact_mod_cast Nat.pos_of_ne_zero h0
    have hfraction : (0 : ℚ) < rest / d := div_pos hrest hpos
    rcases hcmp : compare (2 * rest) d with _ | _ | _
    · rw [Nat.compare_eq_lt] at hcmp
      have hhalf : (rest : ℚ) / d < 1 / 2 := by
        rw [div_lt_div_iff₀ hpos (by norm_num)]
        exact_mod_cast (by omega : rest * 2 < 1 * d)
      simp only [Represents, ExtendedMantissa.ofMantissaAndAccuracy]
      constructor <;> linarith
    · rw [Nat.compare_eq_eq] at hcmp
      have hhalf : (rest : ℚ) / d = 1 / 2 := by
        rw [div_eq_div_iff hpos.ne' (by norm_num)]
        exact_mod_cast (by omega : rest * 2 = 1 * d)
      simp only [Represents, ExtendedMantissa.ofMantissaAndAccuracy]
      linarith
    · rw [Nat.compare_eq_gt] at hcmp
      have hhalf : 1 / 2 < (rest : ℚ) / d := by
        rw [div_lt_div_iff₀ (by norm_num) hpos]
        exact_mod_cast (by omega : 1 * d < rest * 2)
      have hone : (rest : ℚ) / d < 1 := by
        rw [div_lt_one hpos]
        exact_mod_cast hlt
      simp only [Represents, ExtendedMantissa.ofMantissaAndAccuracy]
      constructor <;> linarith

theorem log2_mul_two_pow {m : ℕ} (hm : m ≠ 0) (k : ℕ) : (m * 2 ^ k).log2 = m.log2 + k := by
  rw [Nat.log2_eq_iff (Nat.mul_ne_zero hm (by positivity))]
  have hlow := Nat.log2_self_le hm
  have hup := Nat.lt_log2_self (n := m)
  constructor
  · rw [pow_add]
    gcongr
  · rw [add_right_comm, pow_add]
    gcongr

/-- A quotient has as many digits as the dividend has more than the divisor. -/
theorem log2_sub_le_log2_div {m n : ℕ} (hn : n ≠ 0) (h : n.log2 < m.log2) :
    m.log2 - n.log2 - 1 ≤ (m / n).log2 := by
  have hm : m ≠ 0 := by
    rintro rfl
    simp at h
  have hle : 2 ^ (m.log2 - n.log2 - 1) ≤ m / n := by
    rw [Nat.le_div_iff_mul_le (Nat.pos_of_ne_zero hn)]
    calc 2 ^ (m.log2 - n.log2 - 1) * n ≤ 2 ^ (m.log2 - n.log2 - 1) * 2 ^ (n.log2 + 1) := by
          gcongr
          exact Nat.lt_log2_self.le
      _ = 2 ^ m.log2 := by rw [← pow_add]; congr 1; omega
      _ ≤ m := Nat.log2_self_le hm
  have hpos := Nat.two_pow_pos (m.log2 - n.log2 - 1)
  rwa [Nat.le_log2 (by omega)]

/-- The quotient of unpacked numbers. -/
theorem rounds_div_unpacked (a b : Bool) {m n : ℕ} {e f : ℤ} (hm : 0 < m) (hn : 0 < n) :
    (Parts.ofFloat (packed (UnpackedFloat.div Format.binary64 (.finite (signOf a) m e hm)
      (.finite (signOf b) n f hn)))).Rounds (a != b) (m * 2 ^ e / (n * 2 ^ f)) := by
  have htarget : Format.binary64.targetExponent (totalExponent m e - totalExponent n f) =
      max (m.log2 + e - (n.log2 + f) - 53) (-1074) := by
    simp only [Format.targetExponent, totalExponent, mantissaBits_eq, Format.minExponent]
    norm_num
    omega
  -- the exponent of the quotient, and the digits that are appended to the dividend for it
  obtain ⟨t, ht⟩ : ∃ t, t = min (e - f) (max (m.log2 + e - (n.log2 + f) - 53) (-1074)) :=
    ⟨_, rfl⟩
  obtain ⟨s, hs⟩ : ∃ s, s = (e - f - t).toNat := ⟨_, rfl⟩
  have hdiv : UnpackedFloat.div Format.binary64 (.finite (signOf a) m e hm)
      (.finite (signOf b) n f hn) = roundWithAccuracy Format.binary64 (signOf (a != b))
        (m * 2 ^ s / n) t (accuracyOfFraction (m * 2 ^ s % n) n) := by
    rw [← signOf_div, ← Nat.shiftLeft_eq, hs, ht, ← htarget]
    rfl
  rw [hdiv]
  refine rounds_roundWithAccuracy _ ?_ ?_
  · have hvalue : (m * 2 ^ e / (n * 2 ^ f) : ℚ) / 2 ^ t = ((m * 2 ^ s : ℕ) : ℚ) / n := by
      have hexponent : e = t + s + f := by omega
      have hne : (n : ℚ) ≠ 0 := by exact_mod_cast hn.ne'
      rw [hexponent, zpow_add₀ (by norm_num : (2 : ℚ) ≠ 0), zpow_add₀ (by norm_num : (2 : ℚ) ≠ 0),
        zpow_natCast]
      push_cast
      field_simp
    rw [hvalue]
    exact represents_quotient _ hn
  · by_cases hmin : t ≤ -1074
    · exact .inr hmin
    · left
      have hlog := log2_mul_two_pow hm.ne' s
      have hdiv := log2_sub_le_log2_div (m := m * 2 ^ s) hn.ne' (by omega)
      omega

/-- **Division rounds the quotient.** -/
theorem rounds_div {x y : Float} {a b : Binary} (hx : Parts.ofFloat x = .finite a)
    (hy : Parts.ofFloat y = .finite b) (hb0 : b.m ≠ 0) :
    (Parts.ofFloat (x / y)).Rounds (a.negative != b.negative) (a.magnitude / b.magnitude) := by
  have hpacked : x / y = packed (UnpackedFloat.div Format.binary64 x.toModel.unpack
    y.toModel.unpack) := rfl
  rw [hpacked, unpack_toModel, unpack_toModel, hx, hy, Parts.unpacked, Parts.unpacked,
    unpacked_of_ne hb0]
  by_cases ha0 : a.m = 0
  · rw [unpacked_of_zero ha0, Binary.magnitude_of_zero ha0, zero_div]
    show (Parts.ofFloat (packed (.zero (signOf a.negative / signOf b.negative)))).Rounds _ 0
    rw [signOf_div]
    exact rounds_zero _
  · rw [unpacked_of_ne ha0]
    exact rounds_div_unpacked _ _ _ _

/-! ## Addition -/

/-- A natural number times a power of two. -/
theorem rounds_round (negative : Bool) {m : ℕ} (hm : 0 < m) (e : ℤ) :
    (Parts.ofFloat (packed (UnpackedFloat.round Format.binary64 (signOf negative) m e))).Rounds
      negative (m * 2 ^ e) := by
  obtain ⟨k, hk⟩ : ∃ k, k = (e - max ((m.log2 : ℤ) + e - 52) (-1074)).toNat := ⟨_, rfl⟩
  have hround : UnpackedFloat.round Format.binary64 (signOf negative) m e =
      roundWithAccuracy Format.binary64 (signOf negative) (m * 2 ^ k) (e - k) .exact := by
    rw [← Nat.shiftLeft_eq, hk, ← targetExponent_eq]
    rfl
  rw [hround]
  refine rounds_roundWithAccuracy _ ?_ ?_
  · have hvalue : (m * 2 ^ e : ℚ) / 2 ^ (e - k) = (m * 2 ^ k : ℕ) := by
      rw [zpow_sub₀ (by norm_num : (2 : ℚ) ≠ 0), zpow_natCast]
      push_cast
      field_simp
    rw [hvalue]
    rfl
  · have hlog := log2_mul_two_pow hm.ne' k
    omega

/-- An integer times a power of two. -/
theorem rounds_normalize {n : ℤ} (hn : n ≠ 0) (e : ℤ) (s : Sign) :
    (Parts.ofFloat (packed (UnpackedFloat.normalize Format.binary64 n e s))).Rounds
      (n < 0) (|(n : ℚ)| * 2 ^ e) := by
  have hround := fun negative => rounds_round negative (m := n.natAbs) (by omega) e
  rw [Nat.cast_natAbs, Int.cast_abs] at hround
  unfold UnpackedFloat.normalize
  rcases hcmp : compare n 0 with _ | _ | _
  · rw [Int.compare_eq_lt] at hcmp
    have habs : (-n).toNat = n.natAbs := by omega
    simp only [habs, hcmp, decide_true]
    exact hround true
  · rw [Int.compare_eq_eq] at hcmp
    exact absurd hcmp hn
  · rw [Int.compare_eq_gt] at hcmp
    have habs : n.toNat = n.natAbs := by omega
    have hneg : ¬ n < 0 := by omega
    simp only [habs, hneg, decide_false]
    exact hround false

/-- A finite value with its sign. -/
def Binary.value (x : Binary) : ℚ :=
  if x.negative then -x.magnitude else x.magnitude

theorem Binary.value_of_zero {x : Binary} (h : x.m = 0) : x.value = 0 := by
  simp [value, magnitude_of_zero h]

theorem Binary.abs_value (x : Binary) : |x.value| = x.magnitude := by
  unfold value
  split
  · rw [abs_neg, abs_of_nonneg x.magnitude_nonneg]
  · exact abs_of_nonneg x.magnitude_nonneg

theorem Binary.value_neg_iff {x : Binary} (h : x.m ≠ 0) : x.value < 0 ↔ x.negative = true := by
  have hpos : 0 < x.magnitude := by
    have hm : (0 : ℚ) < x.m := by exact_mod_cast Nat.pos_of_ne_zero h
    unfold magnitude
    positivity
  unfold value
  split
  · next hneg => exact ⟨fun _ => hneg, fun _ => by linarith⟩
  · next hneg => exact ⟨fun hlt => absurd hlt (by linarith), fun hneg' => absurd hneg' hneg⟩

/-- A number rounds to itself. -/
theorem rounds_self {x : Float} {a : Binary} (hx : Parts.ofFloat x = .finite a) (ha0 : a.m ≠ 0) :
    (Parts.ofFloat x).Rounds (a.value < 0) |a.value| := by
  rw [hx, a.abs_value]
  refine ⟨?_, a.roundsFrom_magnitude⟩
  rw [Bool.eq_iff_iff, decide_eq_true_iff, Binary.value_neg_iff ha0]

/-- The signed digits of a value in units of a smaller place. -/
theorem value_eq_apply (x : Binary) {t : ℤ} (h : t ≤ x.q) :
    x.value = ((signOf x.negative).apply (x.m * 2 ^ (x.q - t).toNat : ℕ) : ℤ) * 2 ^ t := by
  have hunit : (2 : ℚ) ^ x.q = 2 ^ (x.q - t).toNat * 2 ^ t := by
    rw [← zpow_natCast, ← zpow_add₀ (by norm_num : (2 : ℚ) ≠ 0)]
    congr 1
    omega
  unfold Binary.value Binary.magnitude
  rw [hunit]
  cases x.negative <;> simp [signOf, Sign.apply] <;> ring

/-- Two values are added at the smaller of their last places. -/
theorem add_unpacked {a b : Binary} (ha0 : a.m ≠ 0) (hb0 : b.m ≠ 0) :
    UnpackedFloat.add Format.binary64 a.unpacked b.unpacked =
      .normalize Format.binary64
        ((signOf a.negative).apply (a.m * 2 ^ (a.q - min a.q b.q).toNat : ℕ) +
          (signOf b.negative).apply (b.m * 2 ^ (b.q - min a.q b.q).toNat : ℕ))
        (min a.q b.q) .positive := by
  rw [unpacked_of_ne ha0, unpacked_of_ne hb0, ← Nat.shiftLeft_eq, ← Nat.shiftLeft_eq]
  rfl

/-- **Addition rounds the sum.** -/
theorem rounds_add {x y : Float} {a b : Binary} (hx : Parts.ofFloat x = .finite a)
    (hy : Parts.ofFloat y = .finite b) (hsum : a.value + b.value ≠ 0) :
    (Parts.ofFloat (x + y)).Rounds (a.value + b.value < 0) |a.value + b.value| := by
  have hpacked : x + y = packed (UnpackedFloat.add Format.binary64 x.toModel.unpack
    y.toModel.unpack) := rfl
  by_cases ha0 : a.m = 0
  · by_cases hb0 : b.m = 0
    · rw [Binary.value_of_zero ha0, Binary.value_of_zero hb0] at hsum
      exact absurd (add_zero 0) hsum
    · have hsame : Parts.ofFloat (x + y) = .finite b := by
        rw [hpacked, unpack_toModel, unpack_toModel, hx, hy, Parts.unpacked, Parts.unpacked,
          unpacked_of_zero ha0, unpacked_of_ne hb0]
        show Parts.ofFloat (packed (.finite (signOf b.negative) b.m b.q _)) = _
        rw [← unpacked_of_ne hb0, ofFloat_packed_unpacked (canonical_of_ofFloat hy)]
      rw [Binary.value_of_zero ha0, zero_add]
      exact rounds_self hsame hb0
  · by_cases hb0 : b.m = 0
    · have hsame : Parts.ofFloat (x + y) = .finite a := by
        rw [hpacked, unpack_toModel, unpack_toModel, hx, hy, Parts.unpacked, Parts.unpacked,
          unpacked_of_ne ha0, unpacked_of_zero hb0]
        show Parts.ofFloat (packed (.finite (signOf a.negative) a.m a.q _)) = _
        rw [← unpacked_of_ne ha0, ofFloat_packed_unpacked (canonical_of_ofFloat hx)]
      rw [Binary.value_of_zero hb0, add_zero]
      exact rounds_self hsame ha0
    · rw [hpacked, unpack_toModel, unpack_toModel, hx, hy, Parts.unpacked, Parts.unpacked,
        add_unpacked ha0 hb0]
      rw [value_eq_apply a (min_le_left a.q b.q), value_eq_apply b (min_le_right a.q b.q),
        ← add_mul, ← Int.cast_add] at hsum ⊢
      generalize (signOf a.negative).apply _ + (signOf b.negative).apply _ = n at hsum ⊢
      have hunit : (0 : ℚ) < 2 ^ min a.q b.q := by positivity
      have hn : n ≠ 0 := by
        rintro rfl
        simp at hsum
      have hsign : ((n : ℚ) * 2 ^ min a.q b.q < 0) ↔ n < 0 := by
        rw [← zero_mul ((2 : ℚ) ^ min a.q b.q), mul_lt_mul_iff_of_pos_right hunit]
        exact_mod_cast Iff.rfl
      rw [abs_mul, abs_of_pos hunit]
      simp only [hsign]
      exact rounds_normalize hn _ _

/-- A sum of nothing is zero. -/
theorem ofFloat_add_eq_zero {x y : Float} {a b : Binary} (hx : Parts.ofFloat x = .finite a)
    (hy : Parts.ofFloat y = .finite b) (ha0 : a.m ≠ 0) (hb0 : b.m ≠ 0)
    (hsum : a.value + b.value = 0) : Parts.ofFloat (x + y) = .finite ⟨false, 0, -1074, false⟩ := by
  have hpacked : x + y = packed (UnpackedFloat.add Format.binary64 x.toModel.unpack
    y.toModel.unpack) := rfl
  rw [hpacked, unpack_toModel, unpack_toModel, hx, hy, Parts.unpacked, Parts.unpacked,
    add_unpacked ha0 hb0]
  rw [value_eq_apply a (min_le_left a.q b.q), value_eq_apply b (min_le_right a.q b.q),
    ← add_mul, ← Int.cast_add] at hsum
  generalize (signOf a.negative).apply _ + (signOf b.negative).apply _ = n at hsum ⊢
  have hunit : (2 : ℚ) ^ min a.q b.q ≠ 0 := by positivity
  have hn : n = 0 := by exact_mod_cast (mul_eq_zero.mp hsum).resolve_right hunit
  subst hn
  exact ofFloat_packed_zero false

/-! ## Numbers that need no rounding -/

/-- Fifty-three digits at a place that is not too small are a value. -/
theorem exists_canonical {n : ℕ} (h0 : n ≠ 0) (hn : n < 2 ^ 53) {j : ℤ} (hj : -1022 ≤ j)
    (hj' : j ≤ 971) : ∃ y : Binary, y.Canonical ∧ 2 ^ 52 ≤ y.m ∧ y.magnitude = n * 2 ^ j := by
  have hlog : n.log2 ≤ 52 := Nat.le_of_lt_succ ((Nat.log2_lt h0).mpr hn)
  obtain ⟨k, hk⟩ : ∃ k, k = 52 - n.log2 := ⟨_, rfl⟩
  have hfull : (n * 2 ^ k).log2 = 52 := by
    rw [log2_mul_two_pow h0]
    omega
  have hbounds := (Nat.log2_eq_iff (Nat.mul_ne_zero h0 (by positivity))).mp hfull
  refine ⟨⟨false, n * 2 ^ k, j - k, decide (n * 2 ^ k = 2 ^ 52 ∧ j - k ≠ -1074)⟩,
    ⟨hbounds.2, ?_, ?_, .inl hbounds.1, rfl⟩, hbounds.1, ?_⟩
  · simp only
    omega
  · simp only
    omega
  · simp only [Binary.magnitude]
    rw [zpow_sub₀ (by norm_num : (2 : ℚ) ≠ 0), zpow_natCast]
    push_cast
    field_simp

/-- Such a number is not changed by rounding. -/
theorem Binary.Canonical.magnitude_eq {x : Binary} (hx : x.Canonical) {n : ℕ} (h0 : n ≠ 0)
    (hn : n < 2 ^ 53) {j : ℤ} (hj : -1022 ≤ j) (hj' : j ≤ 971) (h : x.RoundsFrom (n * 2 ^ j)) :
    x.magnitude = n * 2 ^ j := by
  obtain ⟨y, hy, -, hvalue⟩ := exists_canonical h0 hn hj hj'
  obtain ⟨hm, hq⟩ := hx.eq_of_roundsFrom hy h (hvalue ▸ y.roundsFrom_magnitude)
  rw [← hvalue, magnitude, magnitude, hm, hq]

/-- Rounding does not cross a natural number of fifty-three digits. -/
theorem Binary.Canonical.magnitude_le {x : Binary} (hx : x.Canonical) {v : ℚ} (hv : x.RoundsFrom v)
    {n : ℕ} (h0 : n ≠ 0) (hn : n < 2 ^ 53) (h : v ≤ n) : x.magnitude ≤ n := by
  obtain ⟨y, hy, -, hvalue⟩ := exists_canonical h0 hn (j := 0) (by norm_num) (by norm_num)
  rw [zpow_zero, mul_one] at hvalue
  rw [← hvalue] at h ⊢
  exact hx.magnitude_mono hy hv y.roundsFrom_magnitude h

theorem Binary.Canonical.le_magnitude {x : Binary} (hx : x.Canonical) {v : ℚ} (hv : x.RoundsFrom v)
    {n : ℕ} (h0 : n ≠ 0) (hn : n < 2 ^ 53) (h : n ≤ v) : n ≤ x.magnitude := by
  obtain ⟨y, hy, -, hvalue⟩ := exists_canonical h0 hn (j := 0) (by norm_num) (by norm_num)
  rw [zpow_zero, mul_one] at hvalue
  rw [← hvalue] at h ⊢
  exact hy.magnitude_mono hx y.roundsFrom_magnitude hv h

/-- Anything in front of the overflow rounds to a finite value. -/
theorem Parts.Rounds.exists_finite {p : Parts} {negative : Bool} {v : ℚ} (h : p.Rounds negative v)
    (hv : v < overflowFrom) :
    ∃ b, p = .finite b ∧ b.negative = negative ∧ b.RoundsFrom v := by
  cases p with
  | notANumber => exact h.elim
  | infinite n => exact absurd h.2 (not_le.mpr hv)
  | finite b => exact ⟨b, rfl, h⟩

/-- All numbers of fifty-three digits are in front of it. -/
theorem lt_overflowFrom {v : ℚ} (hv : v < 2 ^ 53) : v < overflowFrom := by
  have hunit : (1 : ℚ) ≤ 2 ^ (970 : ℤ) := one_le_zpow₀ (by norm_num) (by norm_num)
  calc v < 2 ^ 53 * 1 := by linarith
    _ ≤ (2 ^ 54 - 1) * 2 ^ (970 : ℤ) := by
      apply mul_le_mul _ hunit <;> norm_num

theorem exists_ofUInt64 {m : ℕ} (hm : m < 2 ^ 53) :
    ∃ b, Parts.ofFloat m.toUInt64.toFloat = .finite b ∧ b.negative = false ∧ b.magnitude = m := by
  have hpacked : m.toUInt64.toFloat =
      packed (UnpackedFloat.normalize Format.binary64 (m.toUInt64.toNat : ℤ) 0 .positive) := rfl
  have hnat : m.toUInt64.toNat = m := by
    rw [Nat.toUInt64_eq, UInt64.toNat_ofNat', Nat.mod_eq_of_lt (by omega)]
  rw [hpacked, hnat]
  by_cases h0 : m = 0
  · subst h0
    exact ⟨⟨false, 0, -1074, false⟩, ofFloat_packed_zero false, rfl, by simp [Binary.magnitude]⟩
  · have hrounds := rounds_normalize (n := m) (by exact_mod_cast h0) 0 .positive
    obtain ⟨b, hb, hneg, hfrom⟩ := hrounds.exists_finite (lt_overflowFrom (by
      simpa using by exact_mod_cast hm))
    refine ⟨b, hb, hneg.trans (decide_eq_false (by omega)), ?_⟩
    have hvalue := (canonical_of_ofFloat hb).magnitude_eq h0 hm (j := 0) (by norm_num)
      (by norm_num) (by simpa using hfrom)
    simpa using hvalue

/-! ## Decimals -/

/-- A floating-point number is a positive natural number. -/
def Parts.isNatural (p : Parts) (n : ℕ) : Bool :=
  match p with
  | .finite b => !b.negative && b.m != 0 && decimalLe n 0 b.m b.q && binaryLe b.m b.q n 0
  | _ => false

theorem Parts.exists_of_isNatural {p : Parts} {n : ℕ} (h : p.isNatural n = true) :
    ∃ b, p = .finite b ∧ b.negative = false ∧ b.m ≠ 0 ∧ b.magnitude = n := by
  cases p with
  | notANumber => cases h
  | infinite n => cases h
  | finite b =>
    simp only [isNatural, Bool.and_eq_true, Bool.not_eq_true', bne_iff_ne, decimalLe_iff,
      binaryLe_iff, zpow_zero, mul_one] at h
    obtain ⟨⟨⟨hneg, hm⟩, hle⟩, hge⟩ := h
    exact ⟨b, rfl, hneg, hm, le_antisymm hge hle⟩

/-- The table of powers of ten is exact. -/
theorem isNatural_powersOfTen :
    ∀ k : Fin 23,
      (Parts.ofFloat Float.exactlyRepresentablePowersOfTen[k]).isNatural (10 ^ k.val) := by
  decide +kernel

theorem overflowFrom_le_of_large {m : ℕ} (hm : m ≠ 0) {e : ℤ} (he : 1024 ≤ e) :
    overflowFrom ≤ m * 10 ^ e := by
  have hm1 : (1 : ℚ) ≤ m := by exact_mod_cast Nat.one_le_iff_ne_zero.mpr hm
  have hunit : (0 : ℚ) < 2 ^ (970 : ℤ) := by positivity
  calc overflowFrom ≤ 2 ^ (54 : ℤ) * 2 ^ (970 : ℤ) := by
        unfold overflowFrom
        gcongr
        norm_num
    _ = 2 ^ (1024 : ℤ) := by
        rw [← zpow_add₀ (by norm_num : (2 : ℚ) ≠ 0)]
        rfl
    _ ≤ 2 ^ e := zpow_le_zpow_right₀ (by norm_num) he
    _ ≤ 10 ^ e := zpow_le_zpow_left₀ (by omega) (by norm_num) (by norm_num)
    _ ≤ m * 10 ^ e := le_mul_of_one_le_left (by positivity) hm1

theorem rounds_zero_of_small {m : ℕ} {e : ℤ} (he : (m.log2 : ℤ) + e ≤ -1076) :
    (Parts.ofFloat (packed (.zero .positive))).Rounds false (m * 10 ^ e) := by
  have hm : (m : ℚ) ≤ 2 ^ ((m.log2 : ℤ) + 1) := by
    exact_mod_cast (Nat.lt_log2_self (n := m)).le
  have hten : (10 : ℚ) ^ e ≤ 2 ^ e := by
    rw [show (10 : ℚ) = 2 * 5 by norm_num, mul_zpow]
    exact mul_le_of_le_one_right (by positivity) (zpow_le_one_of_nonpos₀ (by norm_num) (by omega))
  have hbound : (m * 10 ^ e : ℚ) ≤ 2 ^ (-1075 : ℤ) := by
    calc (m * 10 ^ e : ℚ) ≤ 2 ^ ((m.log2 : ℤ) + 1) * 2 ^ e := by gcongr
      _ = 2 ^ ((m.log2 : ℤ) + 1 + e) := (zpow_add₀ (by norm_num) _ _).symm
      _ ≤ 2 ^ (-1075 : ℤ) := zpow_le_zpow_right₀ (by norm_num) (by omega)
  exact rounds_zero_of_le false (by positivity) hbound

/-- The nearest number to a decimal, by the exact algorithm. -/
theorem rounds_ofScientific (m : ℕ) (e : ℤ) :
    (Parts.ofFloat (packed (UnpackedFloat.ofScientific Format.binary64 m e))).Rounds false
      (m * 10 ^ e) := by
  by_cases hm : m = 0
  · subst hm
    rw [Nat.cast_zero, zero_mul]
    exact rounds_zero false
  unfold UnpackedFloat.ofScientific
  rw [dif_neg hm]
  by_cases hlarge : e > 2 ^ Format.binary64.exponentBits
  · have he : 1024 ≤ e := by
      norm_num at hlarge
      omega
    have hinfinite : packed (.infinity .positive) = packed (.infinity (signOf false)) := rfl
    rw [if_pos hlarge, hinfinite, ofFloat_packed_infinity]
    exact ⟨rfl, overflowFrom_le_of_large hm he⟩
  rw [if_neg hlarge]
  by_cases hsmall : e < -(2 ^ Format.binary64.exponentBits + (m.log2 : ℤ))
  · rw [if_pos hsmall]
    norm_num at hsmall
    exact rounds_zero_of_small (by omega)
  rw [if_neg hsmall]
  by_cases he : 0 ≤ e
  · have hvalue : (m * 10 ^ e : ℚ) =
        (m <<< Format.binary64.mantissaBits : ℕ) * 2 ^ (-Format.binary64.mantissaBits : ℤ) *
          ((10 ^ e.toNat : ℕ) * 2 ^ (0 : ℤ)) := by
      have hten : (10 : ℚ) ^ e = 10 ^ e.toNat := by
        rw [← zpow_natCast, Int.toNat_of_nonneg he]
      rw [hten, Nat.shiftLeft_eq, zpow_neg, zpow_natCast]
      push_cast
      field_simp
    rw [if_pos he, hvalue]
    refine rounds_mul_unpacked false false _ _ (.inl ?_)
    have hlog := log2_mul_le (m := m <<< Format.binary64.mantissaBits) (n := 10 ^ e.toNat)
      (by rw [Nat.shiftLeft_eq]; positivity) (by positivity)
    rw [Nat.shiftLeft_eq, log2_mul_two_pow hm] at hlog
    rw [Nat.shiftLeft_eq]
    rw [mantissaBits_eq] at hlog ⊢
    omega
  · have hvalue : (m * 10 ^ e : ℚ) =
        m * 2 ^ (0 : ℤ) / ((10 ^ (-e).toNat : ℕ) * 2 ^ (0 : ℤ)) := by
      have hten : (10 : ℚ) ^ e = (10 ^ (-e).toNat)⁻¹ := by
        rw [← zpow_natCast, Int.toNat_of_nonneg (by omega), zpow_neg, inv_inv]
      rw [hten, zpow_zero, mul_one, mul_one, div_eq_mul_inv]
      push_cast
      rfl
    rw [if_neg he, hvalue]
    exact rounds_div_unpacked false false _ _

/-- The shortcut for short numbers and small exponents: one exact power, one rounding. -/
theorem rounds_ofScientific_fast {m k : ℕ} (hm : m < 2 ^ 53) (hk : k ≤ 22) (s : Bool) :
    (Parts.ofFloat (Float.ofScientific m s k)).Rounds false
      (if s then m / 10 ^ k else m * 10 ^ k) := by
  obtain ⟨a, ha, haneg, havalue⟩ := exists_ofUInt64 hm
  obtain ⟨b, hb, hbneg, hb0, hbvalue⟩ :=
    Parts.exists_of_isNatural (isNatural_powersOfTen ⟨k, by omega⟩)
  push_cast at hbvalue
  unfold Float.ofScientific
  rw [dif_pos ⟨hm, hk⟩]
  cases s with
  | false =>
    have hmul := rounds_mul ha hb
    rw [haneg, hbneg, havalue, hbvalue] at hmul
    exact hmul
  | true =>
    have hdiv := rounds_div ha hb hb0
    rw [haneg, hbneg, havalue, hbvalue] at hdiv
    exact hdiv

/-- **A literal is read as the nearest number.** -/
theorem rounds_nearest (m : ℕ) (e : ℤ) :
    (Parts.ofFloat (Literal.nearest m e)).Rounds false (m * 10 ^ e) := by
  unfold Literal.nearest
  by_cases hfast : m < 2 ^ 53 ∧ e.natAbs ≤ 22
  · have hrounds := rounds_ofScientific_fast hfast.1 hfast.2 (e < 0)
    by_cases he : e < 0
    · have hten : (10 : ℚ) ^ e = (10 ^ e.natAbs)⁻¹ := by
        rw [← zpow_natCast, ← zpow_neg]
        congr 1
        omega
      rw [hten, ← div_eq_mul_inv]
      simpa [he] using hrounds
    · have hten : (10 : ℚ) ^ e = 10 ^ e.natAbs := by
        rw [← zpow_natCast]
        congr 1
        omega
      rw [hten]
      simpa [he] using hrounds
  · have hexponent : (if e < 0 then Int.negOfNat e.natAbs else Int.ofNat e.natAbs) = e := by
      split <;> simp only [Int.negOfNat_eq, Int.ofNat_eq_natCast] <;> omega
    have hslow : Float.ofScientific m (e < 0) e.natAbs =
        packed (UnpackedFloat.ofScientific Format.binary64 m e) := by
      unfold Float.ofScientific
      rw [dif_neg hfast]
      simp only [decide_eq_true_eq, hexponent]
      rfl
    rw [hslow]
    exact rounds_ofScientific m e

/-! ## Values in range -/

/-- What rounds to a finite value is below the first infinite one. -/
theorem Binary.Canonical.lt_overflowFrom {x : Binary} (hx : x.Canonical) {v : ℚ}
    (hv : x.RoundsFrom v) : v < overflowFrom := by
  have hm := hx.m_lt
  have hunit : (2 : ℚ) ^ (x.q - 2) ≤ 2 ^ (969 : ℤ) :=
    zpow_le_zpow_right₀ (by norm_num) (by have := hx.q_le; omega)
  have hlimit : overflowFrom = (2 ^ 55 - 2 : ℕ) * 2 ^ (969 : ℤ) := by
    have hdouble : (2 : ℚ) ^ (970 : ℤ) = 2 ^ (969 : ℤ) * 2 := zpow_add_one₀ (by norm_num) 969
    rw [overflowFrom, hdouble]
    generalize (2 : ℚ) ^ (969 : ℤ) = u
    norm_num
    ring
  have hpos : (0 : ℚ) < 2 ^ (969 : ℤ) := by positivity
  generalize (2 : ℚ) ^ (969 : ℤ) = u at hunit hlimit hpos
  by_cases heven : x.m % 2 = 0
  · have hupper : x.upperQuarters < 2 ^ 55 - 2 := by unfold upperQuarters; omega
    calc v ≤ x.upperQuarters * 2 ^ (x.q - 2) := hv.bounds.2
      _ ≤ x.upperQuarters * u := by gcongr
      _ < (2 ^ 55 - 2 : ℕ) * u := by gcongr
      _ = overflowFrom := hlimit.symm
  · have hupper : x.upperQuarters ≤ 2 ^ 55 - 2 := by unfold upperQuarters; omega
    calc v < x.upperQuarters * 2 ^ (x.q - 2) := (hv.strict heven).2
      _ ≤ (2 ^ 55 - 2 : ℕ) * u := by gcongr
      _ = overflowFrom := hlimit.symm

/-- A number that a finite value rounds from is rounded to this value. -/
theorem ofFloat_eq_of_rounds {x : Float} {b : Binary} {v : ℚ}
    (h : (Parts.ofFloat x).Rounds b.negative v) (hb : b.Canonical) (hv : b.RoundsFrom v) :
    Parts.ofFloat x = .finite b := by
  obtain ⟨a, ha, hneg, hfrom⟩ := h.exists_finite (hb.lt_overflowFrom hv)
  rw [ha, (canonical_of_ofFloat ha).ext hb hneg hfrom hv]

end PocketCalc.Decimal
