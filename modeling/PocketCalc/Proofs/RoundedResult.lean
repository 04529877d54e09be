import Mathlib.Algebra.Order.Floor.Defs
import PocketCalc.NumberFormat
import PocketCalc.Proofs.FloatArithmetic

/-!
# Rounding a result to nine decimal places

Rounding scales a value, adds one half, takes the whole part and scales back, and each of
these steps rounds. Small values come out as the nearest ones to a multiple of `10^-9`, and
then they stay: the errors of scaling and adding are less than a quarter of a unit.

* `NumberFormat.round_cases` — **what rounding makes of a value.**
* `NumberFormat.round_eq_self` — **a rounded value is left alone** while its multiple stays
  below `2^51`, where a quarter still is a value.
* `NumberFormat.round_eq_self_of_large` — a value from 4503600 on is left alone, since its
  multiple has no fraction.
-/

namespace PocketCalc

open Decimal

namespace Decimal

/-! ## Whole parts -/

namespace Binary

/-- A value as a fraction of integers. -/
theorem value_mul_denominator (x : Binary) :
    x.value * (2 ^ (-x.q).toNat : ℕ) =
      (((if x.negative then -(x.m : ℤ) else x.m) * (2 ^ x.q.toNat : ℕ) : ℤ) : ℚ) := by
  have hpow := zpow_mul_pow_toNat (b := (2 : ℚ)) (by norm_num) x.q
  unfold value magnitude
  push_cast
  rw [← hpow]
  split <;> ring

/-- The whole part is at most the value, which is less than one more. -/
theorem floor_bounds (x : Binary) : (x.floor : ℚ) ≤ x.value ∧ x.value < x.floor + 1 := by
  have hden : (0 : ℤ) < (2 ^ (-x.q).toNat : ℕ) := by positivity
  have hdenq : (0 : ℚ) < (2 ^ (-x.q).toNat : ℕ) := by positivity
  have hvalue := x.value_mul_denominator
  unfold floor
  simp only [Nat.pow_eq]
  generalize (if x.negative then -(x.m : ℤ) else x.m) * ((2 ^ x.q.toNat : ℕ) : ℤ) = num at hvalue ⊢
  generalize (2 ^ (-x.q).toNat : ℕ) = den at hden hdenq hvalue ⊢
  constructor
  · rw [← mul_le_mul_iff_of_pos_right hdenq, hvalue]
    exact_mod_cast Int.ediv_mul_le num hden.ne'
  · rw [← mul_lt_mul_iff_of_pos_right hdenq, hvalue]
    exact_mod_cast Int.lt_ediv_add_one_mul_self num hden

theorem floor_eq {x : Binary} {n : ℤ} (hle : n ≤ x.value) (hlt : x.value < n + 1) :
    x.floor = n := by
  obtain ⟨hfloor, hfloor'⟩ := x.floor_bounds
  have h1 : (x.floor : ℚ) < n + 1 := lt_of_le_of_lt hfloor hlt
  have h2 : (n : ℚ) < x.floor + 1 := lt_of_le_of_lt hle hfloor'
  have h1' : x.floor < n + 1 := by exact_mod_cast h1
  have h2' : n < x.floor + 1 := by exact_mod_cast h2
  omega

end Binary

/-! ## Integers and zero -/

theorem isFinite_iff {x : Float} : isFinite x = true ↔ ∃ b, Parts.ofFloat x = .finite b := by
  unfold isFinite
  split
  · next b h => exact ⟨fun _ => ⟨b, h⟩, fun _ => rfl⟩
  · next h => exact ⟨fun h' => absurd h' (by simp), fun ⟨b, hb⟩ => absurd hb (h b)⟩

/-- An integer of fifty-three digits is exact. -/
theorem exists_ofInt {n : ℤ} (hn : n.natAbs < 2 ^ 53) :
    ∃ b, Parts.ofFloat (Float.ofInt n) = .finite b ∧ b.negative = decide (n < 0) ∧
      b.magnitude = n.natAbs := by
  have hnat : ∀ m : ℕ, m < 2 ^ 53 → ∃ b, Parts.ofFloat (Float.ofNat m) = .finite b ∧
      b.negative = false ∧ b.magnitude = m := by
    intro m hm
    have hrounds := rounds_ofScientific_fast hm (k := 0) (by norm_num) false
    simp only [Bool.false_eq_true, if_false, pow_zero, mul_one] at hrounds
    obtain ⟨b, hb, hneg, hfrom⟩ := hrounds.exists_finite
      (lt_overflowFrom (by exact_mod_cast hm))
    refine ⟨b, hb, hneg, ?_⟩
    by_cases h0 : m = 0
    · subst h0
      rw [Nat.cast_zero] at hfrom ⊢
      exact Binary.magnitude_of_zero ((canonical_of_ofFloat hb).m_eq_zero hfrom)
    · have hvalue := (canonical_of_ofFloat hb).magnitude_eq h0 hm (j := 0) (by norm_num)
        (by norm_num) (by simpa using hfrom)
      simpa using hvalue
  cases n with
  | ofNat m =>
    obtain ⟨b, hb, hneg, hvalue⟩ := hnat m hn
    exact ⟨b, hb, hneg.trans (decide_eq_false (by simp)).symm, hvalue⟩
  | negSucc m =>
    obtain ⟨b, hb, hneg, hvalue⟩ := hnat (m + 1) hn
    refine ⟨b.neg, ofFloat_neg hb, ?_, hvalue⟩
    rw [decide_eq_true (Int.negSucc_lt_zero m)]
    exact congrArg not hneg

theorem ofFloat_zero : Parts.ofFloat 0 = .finite ⟨false, 0, -1074, false⟩ := by
  decide +kernel

/-- Comparison with zero. -/
theorem beq_zero {x : Float} {b : Binary} (h : Parts.ofFloat x = .finite b) :
    (x == 0) = decide (b.m = 0) := by
  have hbeq : (x == 0) =
      Float.Model.UnpackedFloat.beq x.toModel.unpack (0 : Float).toModel.unpack := rfl
  rw [hbeq, unpack_toModel, unpack_toModel, h, ofFloat_zero, Parts.unpacked, Parts.unpacked,
    unpacked_of_zero (x := ⟨false, 0, -1074, false⟩) rfl]
  by_cases h0 : b.m = 0
  · rw [unpacked_of_zero h0, decide_eq_true h0]
    rfl
  · rw [unpacked_of_ne h0, decide_eq_false h0]
    cases b.negative <;> rfl

end Decimal

/-! ## Nine decimal places -/

theorem isNatural_powerOfTen_nine : (Parts.ofFloat (powerOfTen 9)).isNatural (10 ^ 9) = true := by
  decide +kernel

theorem isFinite_of_finite {x : Float} {b : Binary} (h : Parts.ofFloat x = .finite b) :
    isFinite x = true :=
  isFinite_iff.mpr ⟨b, h⟩

namespace NumberFormat

variable {f : NumberFormat}

/-- A value is left alone if its multiple by the scale is not below `2^52`. -/
theorem round_of_large (x : Float)
    (h : ∀ c, Parts.ofFloat (x * powerOfTen f.places) = .finite c → 2 ^ 52 ≤ c.magnitude) :
    f.round x = x := by
  unfold round
  simp only
  rw [if_pos]
  rw [Bool.or_eq_true, Bool.not_eq_true']
  cases hscaled : Parts.ofFloat (x * powerOfTen f.places) with
  | notANumber => exact .inl (by simp [isFinite, hscaled])
  | infinite n => exact .inl (by simp [isFinite, hscaled])
  | finite c =>
    right
    rw [Parts.atLeast, Binary.atLeast_iff]
    have := h c hscaled
    simp only [exactFrom, Nat.pow_eq]
    push_cast
    exact this

/-- Otherwise it becomes the quotient of an integer, and zero is not negative. -/
theorem round_of_small {x : Float} {c t : Binary}
    (hc : Parts.ofFloat (x * powerOfTen f.places) = .finite c) (hlt : c.magnitude < 2 ^ 52)
    (ht : Parts.ofFloat (x * powerOfTen f.places + 0.5) = .finite t) :
    f.round x =
      if Float.ofInt t.floor / powerOfTen f.places == 0 then 0
      else Float.ofInt t.floor / powerOfTen f.places := by
  have hnot : (Parts.ofFloat (x * powerOfTen f.places)).atLeast exactFrom = false := by
    rw [← Bool.not_eq_true, hc, Parts.atLeast, Binary.atLeast_iff]
    simp only [exactFrom, Nat.pow_eq]
    push_cast
    exact not_le.mpr hlt
  have hfloor : floor? (x * powerOfTen f.places + 0.5) = some t.floor := by
    simp only [floor?, ht]
  unfold round
  simp only
  rw [if_neg (by simp [isFinite_of_finite hc, hnot]), hfloor]

variable {x : Float} {a : Binary}

theorem rounds_scaled (hf : f.places = 9) (hx : Parts.ofFloat x = .finite a) :
    (Parts.ofFloat (x * powerOfTen f.places)).Rounds a.negative (a.magnitude * 10 ^ 9) := by
  obtain ⟨s, hs, hsneg, -, hsvalue⟩ := Parts.exists_of_isNatural isNatural_powerOfTen_nine
  push_cast at hsvalue
  have hmul := rounds_mul hx hs
  rw [hsneg, hsvalue, Bool.bne_false] at hmul
  rw [hf]
  exact hmul

/-- The quotient of an integer by the scale is the nearest value. -/
theorem exists_unscaled (hf : f.places = 9) {n : ℤ} (hn : n.natAbs < 2 ^ 53) :
    ∃ b, Parts.ofFloat (Float.ofInt n / powerOfTen f.places) = .finite b ∧
      b.negative = decide (n < 0) ∧ b.RoundsFrom (n.natAbs * 10 ^ (-9 : ℤ)) := by
  obtain ⟨s, hs, hsneg, hs0, hsvalue⟩ := Parts.exists_of_isNatural isNatural_powerOfTen_nine
  push_cast at hsvalue
  obtain ⟨i, hi, hineg, hivalue⟩ := exists_ofInt hn
  have hdiv := rounds_div hi hs hs0
  have hquotient : (n.natAbs : ℚ) / 1000000000 = n.natAbs * 10 ^ (-9 : ℤ) := by
    norm_num [div_eq_mul_inv]
  have hnq : (n.natAbs : ℚ) < 2 ^ 53 := by exact_mod_cast hn
  rw [hsneg, hsvalue, Bool.bne_false, hineg, hivalue, hquotient] at hdiv
  rw [hf]
  refine hdiv.exists_finite (lt_overflowFrom (lt_of_le_of_lt ?_ hnq))
  rw [← hquotient]
  exact div_le_self (by positivity) (by norm_num)

/-- A half is added with the error of one rounding. -/
theorem exists_add_half {y : Float} {c : Binary} (hc : Parts.ofFloat y = .finite c)
    (hlt : c.magnitude < 2 ^ 52) :
    ∃ t, Parts.ofFloat (y + 0.5) = .finite t ∧ t.RoundsFrom |c.value + 1 / 2| ∧
      (c.value + 1 / 2 ≠ 0 → t.negative = decide (c.value + 1 / 2 < 0)) := by
  have hhalf : Parts.ofFloat 0.5 = .finite ⟨false, 2 ^ 52, -53, true⟩ := by decide +kernel
  have hvalue : (⟨false, 2 ^ 52, -53, true⟩ : Binary).value = 1 / 2 := by
    norm_num [Binary.value, Binary.magnitude]
  by_cases hsum : c.value + 1 / 2 = 0
  · have hc0 : c.m ≠ 0 := by
      intro h0
      rw [Binary.value_of_zero h0] at hsum
      norm_num at hsum
    refine ⟨_, ofFloat_add_eq_zero hc hhalf hc0 (by norm_num) (hvalue ▸ hsum), ?_, ?_⟩
    · rw [hsum, abs_zero]
      have hself := (⟨false, 0, -1074, false⟩ : Binary).roundsFrom_magnitude
      rwa [Binary.magnitude, Nat.cast_zero, zero_mul] at hself
    · exact fun h => absurd hsum h
  · have hadd := rounds_add hc hhalf (hvalue ▸ hsum)
    rw [hvalue] at hadd
    have habs := c.abs_value
    obtain ⟨t, ht, htneg, htfrom⟩ := hadd.exists_finite (lt_overflowFrom (by
      have := abs_add_le c.value (1 / 2)
      rw [habs] at this
      norm_num at this ⊢
      linarith))
    exact ⟨t, ht, htfrom, fun _ => htneg⟩

theorem abs_value_sub {t : Binary} {v : ℚ} (h : t.negative = decide (v < 0)) :
    |t.value - v| = |(|v| - t.magnitude)| := by
  unfold Binary.value
  by_cases hv : v < 0
  · rw [if_pos (h.trans (decide_eq_true hv)), abs_of_neg hv]
    ring_nf
  · rw [if_neg (by simp [h, hv]), abs_of_nonneg (not_lt.mp hv), abs_sub_comm]

/-- A rounded sum that stays clear of the integers has the whole part of the sum. -/
theorem floor_of_near {t : Binary} {v : ℚ} (ht : t.Canonical) (hfrom : t.RoundsFrom |v|)
    (hneg : v ≠ 0 → t.negative = decide (v < 0)) {n : ℤ} (hsmall : |v| ≤ 2 ^ 51 - 1)
    (hlow : n + 1 / 8 < v) (hup : v < n + 7 / 8) : t.floor = n := by
  have hv0 : v ≠ 0 := by
    rintro rfl
    have hlow' : ((8 * n + 1 : ℤ) : ℚ) < (0 : ℤ) := by push_cast; linarith
    have hup' : ((0 : ℤ) : ℚ) < ((8 * n + 7 : ℤ) : ℚ) := by push_cast; linarith
    have hlow'' : 8 * n + 1 < 0 := by exact_mod_cast hlow'
    have hup'' : 0 < 8 * n + 7 := by exact_mod_cast hup'
    omega
  have hmag : t.magnitude < 2 ^ (51 : ℤ) := by
    have := ht.magnitude_le hfrom (n := 2 ^ 51 - 1) (by norm_num) (by norm_num) (by
      push_cast
      linarith)
    norm_num at this ⊢
    linarith
  have herror := ht.abs_sub_le hfrom (by norm_num) hmag
  rw [← abs_value_sub (hneg hv0), abs_le] at herror
  norm_num at herror
  exact Binary.floor_eq (by linarith) (by linarith)

/-- The whole part that rounding finds for the nearest value to a multiple of the last
place, below the magnitudes at which a half is the unit of the scaled value. -/
theorem exists_floor_eq (hf : f.places = 9) (hx : Parts.ofFloat x = .finite a) (h0 : a.m ≠ 0)
    {k : ℕ} (hk : k ≤ 2 ^ 51 - 2) (h : a.RoundsFrom (k * 10 ^ (-9 : ℤ))) :
    ∃ c t, Parts.ofFloat (x * powerOfTen f.places) = .finite c ∧ c.magnitude < 2 ^ 52 ∧
      Parts.ofFloat (x * powerOfTen f.places + 0.5) = .finite t ∧
      t.floor = if a.negative then -(k : ℤ) else k := by
  have ha := canonical_of_ofFloat hx
  have hkq : (k : ℚ) ≤ 2 ^ 51 - 2 := by
    have : k + 2 ≤ 2 ^ 51 := by omega
    have : (k : ℚ) + 2 ≤ 2 ^ 51 := by exact_mod_cast this
    linarith
  have hk1 : (1 : ℚ) ≤ k := ha.one_le_multiple h0 h
  have hnine := Binary.ten_zpow_neg_nine
  -- the value is off by less than a quarter of the last place
  have hamag : a.magnitude < 2 ^ (22 : ℤ) := by
    have := ha.magnitude_le h (n := 2 ^ 22 - 1) (by norm_num) (by norm_num) (by
      rw [hnine]
      push_cast
      linarith)
    norm_num at this ⊢
    linarith
  have haerror := abs_le.mp (ha.abs_sub_le h (by norm_num) hamag)
  rw [hnine] at haerror
  norm_num at haerror
  -- and so is its multiple, up to the rounding of the product
  obtain ⟨c, hc, hcneg, hcfrom⟩ := (rounds_scaled hf hx).exists_finite (lt_overflowFrom (by
    linarith))
  have hccan := canonical_of_ofFloat hc
  have hcmag : c.magnitude < 2 ^ (51 : ℤ) := by
    have := hccan.magnitude_le hcfrom (n := 2 ^ 51 - 1) (by norm_num) (by norm_num) (by
      push_cast
      linarith)
    norm_num at this ⊢
    linarith
  have hcerror := abs_le.mp (hccan.abs_sub_le hcfrom (by norm_num) hcmag)
  norm_num at hcerror
  -- so that half a unit more does not reach the next integer
  obtain ⟨t, ht, htfrom, htneg⟩ := exists_add_half hc (by norm_num at hcmag ⊢; linarith)
  have htcan := canonical_of_ofFloat ht
  refine ⟨c, t, hc, by norm_num at hcmag ⊢; linarith, ht, ?_⟩
  refine floor_of_near htcan htfrom htneg ?_ ?_ ?_ <;> unfold Binary.value <;> rw [hcneg]
  · cases a.negative <;> simp [abs_le] <;> constructor <;> linarith
  · cases a.negative <;> simp <;> linarith
  · cases a.negative <;> simp <;> linarith

/-- **Rounding once more changes nothing** about such a value. -/
theorem round_eq_self (hf : f.places = 9) (hx : Parts.ofFloat x = .finite a) (h0 : a.m ≠ 0) {k : ℕ}
    (hk : k ≤ 2 ^ 51 - 2) (h : a.RoundsFrom (k * 10 ^ (-9 : ℤ))) : f.round x = x := by
  have ha := canonical_of_ofFloat hx
  obtain ⟨c, t, hc, hclt, ht, hfloor⟩ := exists_floor_eq hf hx h0 hk h
  have hnatAbs : t.floor.natAbs = k := by
    rw [hfloor]
    split <;> simp
  have hsign : decide (t.floor < 0) = a.negative := by
    have : 0 < k := by exact_mod_cast one_pos.trans_le (ha.one_le_multiple h0 h)
    rw [hfloor]
    cases a.negative
    · simp
    · simp
      omega
  obtain ⟨b, hb, hbneg, hbfrom⟩ := exists_unscaled hf (n := t.floor) (by omega)
  rw [hnatAbs] at hbfrom
  obtain rfl := (canonical_of_ofFloat hb).ext ha (hbneg.trans hsign) hbfrom h
  rw [round_of_small hc hclt ht, beq_zero hb, if_neg (by simpa using h0)]
  exact eq_of_ofFloat_eq hb hx

/-- Nor is a large value changed. -/
theorem round_eq_self_of_large (hf : f.places = 9) (hx : Parts.ofFloat x = .finite a)
    (h : 4503600 ≤ a.magnitude) : f.round x = x := by
  refine round_of_large x fun c hc => ?_
  have hscaled := rounds_scaled hf hx
  rw [hc] at hscaled
  have := (canonical_of_ofFloat hc).le_magnitude hscaled.2 (n := 2 ^ 52) (by norm_num)
    (by norm_num) (by push_cast; linarith)
  exact_mod_cast this

/-- **What rounding makes of a value**: a large one is left alone, and any other becomes
zero or the nearest value to a multiple of the last place. -/
theorem round_cases (hf : f.places = 9) (hx : Parts.ofFloat x = .finite a) :
    (f.round x = x ∧ 4503599 ≤ a.magnitude) ∨ f.round x = 0 ∨
      ∃ b, ∃ k : ℕ, Parts.ofFloat (f.round x) = .finite b ∧ b.m ≠ 0 ∧ k < 2 ^ 53 ∧
        b.RoundsFrom (k * 10 ^ (-9 : ℤ)) := by
  have hscaled := rounds_scaled hf hx
  by_cases hlarge : ∀ c, Parts.ofFloat (x * powerOfTen f.places) = .finite c → 2 ^ 52 ≤ c.magnitude
  · refine .inl ⟨round_of_large x hlarge, ?_⟩
    by_contra hsmall
    obtain ⟨c, hc, -, hcfrom⟩ := hscaled.exists_finite (lt_overflowFrom (by linarith))
    have hcmag := (canonical_of_ofFloat hc).magnitude_le hcfrom (n := 2 ^ 52 - 1) (by norm_num)
      (by norm_num) (by push_cast; linarith)
    have := hlarge c hc
    norm_num at hcmag this
    linarith
  · push Not at hlarge
    obtain ⟨c, hc, hclt⟩ := hlarge
    obtain ⟨t, ht, htfrom, -⟩ := exists_add_half hc hclt
    have htmag := (canonical_of_ofFloat ht).magnitude_le htfrom (n := 2 ^ 52 + 1) (by norm_num)
      (by norm_num) (by
        have := abs_add_le c.value (1 / 2)
        rw [c.abs_value] at this
        norm_num at this ⊢
        linarith)
    have hbounds := t.floor_bounds
    have hvalue := abs_le.mp (t.abs_value.trans_le htmag)
    have hn : t.floor.natAbs < 2 ^ 53 := by
      have hle : (t.floor : ℚ) ≤ (2 ^ 52 + 1 : ℤ) := by
        push_cast at hvalue ⊢
        linarith
      have hge : ((-(2 ^ 52 + 2) : ℤ) : ℚ) ≤ t.floor := by
        push_cast at hvalue ⊢
        linarith
      have hle' : t.floor ≤ 2 ^ 52 + 1 := by exact_mod_cast hle
      have hge' : -(2 ^ 52 + 2) ≤ t.floor := by exact_mod_cast hge
      omega
    obtain ⟨b, hb, -, hbfrom⟩ := exists_unscaled hf hn
    rw [round_of_small hc hclt ht, beq_zero hb]
    by_cases hb0 : b.m = 0
    · exact .inr (.inl (if_pos (by simpa using hb0)))
    · rw [if_neg (by simpa using hb0)]
      exact .inr (.inr ⟨b, _, hb, hb0, hn, hbfrom⟩)

end NumberFormat

end PocketCalc
