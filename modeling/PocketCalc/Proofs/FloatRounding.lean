import PocketCalc.Proofs.FloatBits

/-!
# Rounding to the nearest value

Every operation computes digits of its exact result and hands them to one rounding
function, together with what is known of the rest behind them. This function finds the
value in whose interval the exact result lies.

* `Represents` — a number is the digits that were computed and a rest behind them.
* `Parts.Rounds` — a floating-point number is what a real rounds to, an infinity from
  `overflowFrom` on.
* `rounds_roundWithAccuracy` — **rounding finds the nearest value**, provided that enough
  digits were computed.
-/

namespace PocketCalc.Decimal

open Float.Model (Format UnpackedFloat totalExponent)
open Float.Model.UnpackedFloat

/-! ## Digits with what follows them -/

/-- A number is the digits of `em` and a rest behind them: nothing, less than a half, a
half, or more than a half. -/
def Represents (em : ExtendedMantissa) (v : ℚ) : Prop :=
  match em.roundBit, em.stickyBit with
  | false, false => v = em.mantissa
  | false, true => em.mantissa < v ∧ v < em.mantissa + 1 / 2
  | true, false => v = em.mantissa + 1 / 2
  | true, true => em.mantissa + 1 / 2 < v ∧ v < em.mantissa + 1

variable {em : ExtendedMantissa} {v : ℚ}

/-- The digits are the whole part. -/
theorem Represents.bounds (h : Represents em v) : em.mantissa ≤ v ∧ v < em.mantissa + 1 := by
  rcases em with ⟨m, r, s⟩
  cases r <;> cases s <;> simp only [Represents] at h ⊢ <;> constructor <;> linarith

/-- Dropping the last digit halves the number. -/
theorem Represents.shiftRightOne (h : Represents em v) : Represents em.shiftRightOne (v / 2) := by
  rcases em with ⟨m, r, s⟩
  obtain ⟨k, hk | hk⟩ := Nat.even_or_odd' m
  · have hmod : (m % 2 != 0) = false := by simp [hk]
    have hdiv : m / 2 = k := by omega
    cases r <;> cases s <;>
      simp only [Represents, ExtendedMantissa.shiftRightOne, hmod, hdiv, Bool.or_false,
        Bool.or_true] at h ⊢ <;> subst hk <;> push_cast at h <;>
      first | linarith | (constructor <;> linarith)
  · have hmod : (m % 2 != 0) = true := by simp [hk]
    have hdiv : m / 2 = k := by omega
    cases r <;> cases s <;>
      simp only [Represents, ExtendedMantissa.shiftRightOne, hmod, hdiv, Bool.or_false,
        Bool.or_true] at h ⊢ <;> subst hk <;> push_cast at h <;>
      first | linarith | (constructor <;> linarith)

theorem shiftRight_succ (em : ExtendedMantissa) (n : ℕ) :
    em >>> (n + 1) = (em >>> n).shiftRightOne :=
  rfl

theorem Represents.shiftRight (h : Represents em v) (n : ℕ) :
    Represents (em >>> n) (v / 2 ^ n) := by
  induction n with
  | zero =>
    rw [pow_zero, div_one]
    exact h
  | succ n ih =>
    rw [shiftRight_succ, pow_succ, ← div_div]
    exact ih.shiftRightOne

theorem mantissa_shiftRight (em : ExtendedMantissa) (n : ℕ) :
    (em >>> n).mantissa = em.mantissa / 2 ^ n := by
  induction n with
  | zero => simp; rfl
  | succ n ih =>
    rw [shiftRight_succ, pow_succ, ← Nat.div_div_eq_div_mul, ← ih]
    rfl

/-- Rounding goes to one of the neighbours. -/
theorem roundedMantissa_cases (em : ExtendedMantissa) :
    em.roundedMantissa = em.mantissa ∨ em.roundedMantissa = em.mantissa + 1 := by
  rcases em with ⟨m, r, s⟩
  cases r <;> cases s <;>
    simp [ExtendedMantissa.roundedMantissa, ExtendedMantissa.accuracy,
      Accuracy.roundToNearestEven]
  exact (Nat.mod_two_eq_zero_or_one m).imp (by omega) (by omega)

/-- A nearest natural number, and from the middle the even one. -/
def NearestEven (r : ℕ) (v : ℚ) : Prop :=
  r - 1 / 2 ≤ v ∧ v ≤ r + 1 / 2 ∧ (r % 2 ≠ 0 → r - 1 / 2 < v ∧ v < r + 1 / 2)

theorem Represents.rounded (h : Represents em v) : NearestEven em.roundedMantissa v := by
  unfold NearestEven
  rcases em with ⟨m, r, s⟩
  cases r <;> cases s <;>
    simp only [Represents, ExtendedMantissa.roundedMantissa, ExtendedMantissa.accuracy,
      Accuracy.roundToNearestEven] at h ⊢
  · refine ⟨by linarith, by linarith, fun _ => ⟨by linarith, by linarith⟩⟩
  · refine ⟨by linarith, by linarith, fun _ => ⟨by linarith, by linarith⟩⟩
  · -- the middle
    rcases Nat.mod_two_eq_zero_or_one m with heven | hodd
    · simp only [heven, add_zero]
      refine ⟨by linarith, by linarith, fun hne => absurd rfl hne⟩
    · simp only [hodd]
      push_cast
      refine ⟨by linarith, by linarith, fun hne => absurd ?_ hne⟩
      omega
  · push_cast
    refine ⟨by linarith, by linarith, fun _ => ⟨by linarith, by linarith⟩⟩

/-! ## Rounding to fifty-three digits -/

theorem targetExponent_eq (m : ℕ) (e : ℤ) :
    Format.binary64.targetExponent (totalExponent m e) = max (m.log2 + e - 52) (-1074) := by
  simp only [Format.targetExponent, totalExponent, mantissaBits_eq, Format.minExponent]
  norm_num
  omega

/-- Fifty-three digits stay as they are, -/
theorem shiftToTargetExponent_of_lt {r : ℕ} {t : ℤ} (hr : r < 2 ^ 53) (ht : -1074 ≤ t) :
    shiftToTargetExponent Format.binary64 r t .exact = (⟨r, false, false⟩, t) := by
  have hlog : r.log2 ≤ 52 := by
    by_cases h0 : r = 0
    · simp [h0]
    · exact Nat.le_of_lt_succ ((Nat.log2_lt h0).mpr hr)
  have hshift : (max ((r.log2 : ℤ) + t - 52) (-1074) - t).toNat = 0 := by omega
  simp only [shiftToTargetExponent, targetExponent_eq, shiftToExponent, hshift]
  simp
  rfl

/-- and a carry into one more digit is shifted out. -/
theorem shiftToTargetExponent_carry {t : ℤ} (ht : -1074 ≤ t) :
    shiftToTargetExponent Format.binary64 (2 ^ 53) t .exact =
      (⟨2 ^ 52, false, false⟩, t + 1) := by
  have hshift : (max (((2 ^ 53 : ℕ).log2 : ℤ) + t - 52) (-1074) - t).toNat = 1 := by
    rw [Nat.log2_two_pow]
    omega
  simp only [shiftToTargetExponent, targetExponent_eq, shiftToExponent, hshift]
  rfl

/-- Half a unit beyond the largest finite value. -/
def overflowFrom : ℚ :=
  (2 ^ 54 - 1) * 2 ^ (970 : ℤ)

/-- A floating-point number is what rounding a real with the given sign leads to, the
infinities from half a unit beyond the largest value on. -/
def Parts.Rounds (p : Parts) (negative : Bool) (v : ℚ) : Prop :=
  match p with
  | .finite b => b.negative = negative ∧ b.RoundsFrom v
  | .infinite n => n = negative ∧ overflowFrom ≤ v
  | .notANumber => False

section

variable {negative : Bool} {r : ℕ} {t : ℤ}

/-- Rounded digits are the digits of the value if they fit. -/
theorem roundsFrom_of_nearestEven (hnear : NearestEven r (v / 2 ^ t))
    (hpower : r = 2 ^ 52 → t ≠ -1074 → r ≤ v / 2 ^ t) (hv : 0 ≤ v) :
    (⟨negative, r, t, decide (r = 2 ^ 52 ∧ t ≠ -1074)⟩ : Binary).RoundsFrom v := by
  obtain ⟨hlow, hup, hodd⟩ := hnear
  have hscaled : 0 ≤ v / 2 ^ t := by positivity
  rw [Binary.roundsFrom_iff_scaled]
  simp only [Binary.lowerQuarters, Binary.upperQuarters, decide_eq_true_eq]
  push_cast
  split
  · refine ⟨?_, by linarith⟩
    split
    · next hnarrow =>
      have := hpower hnarrow.1 hnarrow.2
      rw [Nat.cast_sub (by omega)]
      push_cast
      linarith
    · by_cases h0 : r = 0
      · simpa [h0] using hscaled
      · rw [Nat.cast_sub (by omega)]
        push_cast
        linarith
  · next hne =>
    obtain ⟨hlow', hup'⟩ := hodd hne
    have hpow : r ≠ 2 ^ 52 := by omega
    refine ⟨?_, by linarith⟩
    rw [if_neg (fun h => hpow h.1), Nat.cast_sub (by omega)]
    push_cast
    linarith

/-- Beyond the largest last place there is an overflow. -/
theorem overflowFrom_le (h : (2 ^ 53 - 1 / 2) * 2 ^ (971 : ℤ) ≤ v) : overflowFrom ≤ v := by
  have hdouble : (2 : ℚ) ^ (971 : ℤ) = 2 ^ (970 : ℤ) * 2 := zpow_add_one₀ (by norm_num) 970
  calc overflowFrom = (2 ^ 53 - 1 / 2) * (2 ^ (970 : ℤ) * 2) := by unfold overflowFrom; ring
    _ = (2 ^ 53 - 1 / 2) * 2 ^ (971 : ℤ) := by rw [hdouble]
    _ ≤ v := h

/-- Rounded digits with fifty-three places, or fewer in the range of the subnormal values. -/
theorem rounds_packed (hr : r < 2 ^ 53) (ht : -1074 ≤ t) (hnormal : 2 ^ 52 ≤ r ∨ t = -1074)
    (hnear : NearestEven r (v / 2 ^ t)) (hpower : r = 2 ^ 52 → t ≠ -1074 → r ≤ v / 2 ^ t)
    (hv : 0 ≤ v) :
    (Parts.ofFloat (packed (if h : r = 0 then .zero (signOf negative)
      else .finite (signOf negative) r t (Nat.pos_of_ne_zero h)))).Rounds negative v := by
  by_cases h0 : r = 0
  · have ht' : t = -1074 := by omega
    rw [dif_pos h0, ofFloat_packed_zero]
    subst h0 ht'
    exact ⟨rfl, roundsFrom_of_nearestEven hnear hpower hv⟩
  · rw [dif_neg h0, ofFloat_packed_finite negative (Nat.pos_of_ne_zero h0) hr ht hnormal]
    split
    · exact ⟨rfl, roundsFrom_of_nearestEven hnear hpower hv⟩
    · next hover =>
      have hwhole : (2 ^ 52 : ℚ) ≤ v / 2 ^ t := by
        rcases (hnormal.resolve_right (by omega)).eq_or_lt with heq | hlt
        · have := hpower heq.symm (by omega)
          rw [← heq] at this
          exact_mod_cast this
        · have hle : (2 ^ 52 + 1 : ℚ) ≤ r := by exact_mod_cast hlt
          have := hnear.1
          linarith
      have hlarge : (2 : ℚ) ^ (971 : ℤ) * 2 ≤ 2 ^ t := by
        rw [← zpow_add_one₀ (by norm_num : (2 : ℚ) ≠ 0)]
        exact zpow_le_zpow_right₀ (by norm_num) (by omega)
      refine ⟨rfl, overflowFrom_le ?_⟩
      calc ((2 : ℚ) ^ 53 - 1 / 2) * 2 ^ (971 : ℤ) ≤ 2 ^ 53 * 2 ^ (971 : ℤ) := by
            gcongr
            norm_num
        _ = 2 ^ 52 * (2 ^ (971 : ℤ) * 2) := by ring
        _ ≤ 2 ^ 52 * 2 ^ t := by gcongr
        _ ≤ v := (le_div_iff₀ (by positivity)).mp hwhole

/-- A carry into a fifty-fourth digit makes the last place twice as large. -/
theorem rounds_packed_carry (ht : -1074 ≤ t) (hnear : NearestEven (2 ^ 53) (v / 2 ^ t))
    (hup : v / 2 ^ t < 2 ^ 53) :
    (Parts.ofFloat (packed (.finite (signOf negative) (2 ^ 52) (t + 1) (by decide)))).Rounds
      negative v := by
  have hlow := hnear.1
  push_cast at hlow
  rw [ofFloat_packed_finite negative _ (by norm_num) (by omega) (.inl le_rfl)]
  split
  · have hhalf : v / 2 ^ (t + 1) = v / 2 ^ t / 2 := by
      rw [zpow_add_one₀ (by norm_num : (2 : ℚ) ≠ 0), div_div]
    have hlower : (⟨negative, 2 ^ 52, t + 1, decide (2 ^ 52 = 2 ^ 52 ∧ t + 1 ≠ -1074)⟩ :
        Binary).lowerQuarters = 2 ^ 54 - 1 := by
      have hnarrow : decide (2 ^ 52 = 2 ^ 52 ∧ t + 1 ≠ -1074) = true :=
        decide_eq_true ⟨rfl, by omega⟩
      rw [Binary.lowerQuarters, if_pos hnarrow]
      norm_num
    refine ⟨rfl, ?_⟩
    rw [Binary.roundsFrom_iff_scaled, if_pos (by norm_num), hlower, Binary.upperQuarters, hhalf]
    norm_num only
    constructor <;> linarith
  · next hover =>
    have hlarge : (2 : ℚ) ^ (971 : ℤ) ≤ 2 ^ t := zpow_le_zpow_right₀ (by norm_num) (by omega)
    refine ⟨rfl, overflowFrom_le ?_⟩
    calc ((2 : ℚ) ^ 53 - 1 / 2) * 2 ^ (971 : ℤ) ≤ (2 ^ 53 - 1 / 2) * 2 ^ t := by
          gcongr
      _ ≤ v := (le_div_iff₀ (by positivity)).mp hlow

/-- Rounding shifts twice, to the digits of the value and to those of the rounded one. -/
theorem roundWithAccuracy_of_shifts {s : Sign} {m : ℕ} {e e' q : ℤ} {acc : Accuracy}
    {em final : ExtendedMantissa}
    (hfirst : shiftToTargetExponent Format.binary64 m e acc = (em, e'))
    (hsecond : shiftToTargetExponent Format.binary64 em.roundedMantissa e' .exact = (final, q)) :
    roundWithAccuracy Format.binary64 s m e acc =
      if h : final.mantissa = 0 then .zero s
      else .finite s final.mantissa q (Nat.pos_of_ne_zero h) := by
  unfold roundWithAccuracy
  rw [hfirst]
  dsimp only
  rw [hsecond]

/-- Rounding reads the digits of the value off, rounds what follows them, and shifts a
carry out. -/
theorem roundWithAccuracy_eq (s : Sign) {m k : ℕ} {e : ℤ} {acc : Accuracy}
    (hk : k = (max ((m.log2 : ℤ) + e - 52) (-1074) - e).toNat) {em : ExtendedMantissa}
    (hem : em = ExtendedMantissa.ofMantissaAndAccuracy m acc >>> k)
    (hr : em.roundedMantissa ≤ 2 ^ 53) :
    roundWithAccuracy Format.binary64 s m e acc =
      if em.roundedMantissa < 2 ^ 53 then
        if h : em.roundedMantissa = 0 then .zero s
        else .finite s em.roundedMantissa (e + k) (Nat.pos_of_ne_zero h)
      else .finite s (2 ^ 52) (e + k + 1) (by decide) := by
  have ht : -1074 ≤ e + k := by omega
  have hfirst : shiftToTargetExponent Format.binary64 m e acc = (em, e + k) := by
    simp only [shiftToTargetExponent, targetExponent_eq, shiftToExponent]
    rw [hem, hk]
  by_cases hlt : em.roundedMantissa < 2 ^ 53
  · rw [if_pos hlt]
    exact roundWithAccuracy_of_shifts hfirst (shiftToTargetExponent_of_lt hlt ht)
  · have heq : em.roundedMantissa = 2 ^ 53 := by omega
    have hcarry := shiftToTargetExponent_carry ht
    rw [← heq] at hcarry
    rw [if_neg hlt, roundWithAccuracy_of_shifts hfirst hcarry]
    exact dif_neg (by norm_num)

@[simp] theorem mantissa_ofMantissaAndAccuracy (m : ℕ) (acc : Accuracy) :
    (ExtendedMantissa.ofMantissaAndAccuracy m acc).mantissa = m := by
  rcases acc with _ | (_ | _ | _) <;> rfl

/-- The digits that are kept are fifty-three, or fewer in the range of the subnormal
values. -/
theorem kept_digits {m k : ℕ} {e : ℤ} (henough : 52 ≤ m.log2 ∨ e ≤ -1074)
    (hk : k = (max ((m.log2 : ℤ) + e - 52) (-1074) - e).toNat) :
    m / 2 ^ k < 2 ^ 53 ∧ (2 ^ 52 ≤ m / 2 ^ k ∨ e + k = -1074) := by
  constructor
  · rw [Nat.div_lt_iff_lt_mul (by positivity), ← pow_add]
    exact lt_of_lt_of_le Nat.lt_log2_self (Nat.pow_le_pow_right (by norm_num) (by omega))
  · by_cases hmin : e + k = -1074
    · exact .inr hmin
    · have hlog : 52 + k = m.log2 := by omega
      have hm : m ≠ 0 := by
        rintro rfl
        simp at hlog
      left
      rw [Nat.le_div_iff_mul_le (by positivity), ← pow_add, hlog]
      exact Nat.log2_self_le hm

/-- **Rounding finds the nearest value**, provided that there are enough digits. -/
theorem rounds_roundWithAccuracy (negative : Bool) {m : ℕ} {e : ℤ} {acc : Accuracy}
    (hv : Represents (ExtendedMantissa.ofMantissaAndAccuracy m acc) (v / 2 ^ e))
    (henough : 52 ≤ m.log2 ∨ e ≤ -1074) :
    (Parts.ofFloat (packed (roundWithAccuracy Format.binary64 (signOf negative) m e acc))).Rounds
      negative v := by
  obtain ⟨k, hk⟩ : ∃ k, k = (max ((m.log2 : ℤ) + e - 52) (-1074) - e).toNat := ⟨_, rfl⟩
  obtain ⟨em, hem⟩ : ∃ em, em = ExtendedMantissa.ofMantissaAndAccuracy m acc >>> k := ⟨_, rfl⟩
  obtain ⟨hwidth, hnormal⟩ := kept_digits henough hk
  have ht : -1074 ≤ e + k := by omega
  have hmantissa := mantissa_shiftRight (ExtendedMantissa.ofMantissaAndAccuracy m acc) k
  have hrep : Represents (ExtendedMantissa.ofMantissaAndAccuracy m acc >>> k)
      (v / 2 ^ (e + k)) := by
    rw [zpow_add₀ (by norm_num : (2 : ℚ) ≠ 0), zpow_natCast, ← div_div]
    exact hv.shiftRight k
  rw [mantissa_ofMantissaAndAccuracy, ← hem] at hmantissa
  rw [← hem] at hrep
  obtain ⟨hlow, hup⟩ := hrep.bounds
  have hcases := roundedMantissa_cases em
  have hnear := hrep.rounded
  rw [← hmantissa] at hwidth hnormal
  have hnonneg : 0 ≤ v := by
    have hq : 0 ≤ v / 2 ^ (e + k) := le_trans (by positivity) hlow
    rwa [le_div_iff₀ (by positivity), zero_mul] at hq
  rw [roundWithAccuracy_eq (signOf negative) hk hem (by omega)]
  by_cases hlt : em.roundedMantissa < 2 ^ 53
  · rw [if_pos hlt]
    refine rounds_packed hlt ht (by omega) hnear ?_ hnonneg
    -- a power of two is not reached from below
    intro hpow hmin
    have hle : (2 ^ 52 : ℚ) ≤ em.mantissa := by exact_mod_cast hnormal.resolve_right hmin
    rw [hpow]
    push_cast
    linarith
  · rw [if_neg hlt]
    have hfull : em.mantissa = 2 ^ 53 - 1 := by omega
    have hround : em.roundedMantissa = 2 ^ 53 := by omega
    rw [hround] at hnear
    refine rounds_packed_carry ht hnear ?_
    rw [hfull, Nat.cast_sub (by norm_num)] at hup
    push_cast at hup
    linarith

end

end PocketCalc.Decimal
