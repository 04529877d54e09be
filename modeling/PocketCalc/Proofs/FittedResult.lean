import PocketCalc.Proofs.NumberWidth
import PocketCalc.Proofs.RoundedResult

/-!
# How a result is written

A result is rounded to nine decimal places and its text fitted to twelve characters.

* `round_spec` — what rounding leaves is zero, large, or near a multiple of the last place.
* `Binary.Canonical.le_shortest_iff` — **no integer separates a number from its name.**
* `le_exponent_iff` — the place of the leading digit, from the value itself.
* `fit_cases` — **the three ways to write a result**, and when each of them is taken.
-/

namespace PocketCalc

open Decimal

/-- **No integer separates a number from its name.** -/
theorem Decimal.Binary.Canonical.le_shortest_iff {x : Binary} (hx : x.Canonical) {c : ℕ}
    (hc : c < 10 ^ 15) : (c : ℚ) ≤ x.shortest.value ↔ (c : ℚ) ≤ x.magnitude := by
  rcases Nat.eq_zero_or_pos c with rfl | hpos
  · have hname : 0 ≤ x.shortest.value := by
      unfold Dec.value
      positivity
    simp [hname, x.magnitude_nonneg]
  · constructor
    · exact hx.le_magnitude x.roundsFrom_shortest hpos.ne' (hc.trans (by norm_num))
    · -- an integer between them would be a shorter name
      intro h
      by_contra hlt
      rw [not_le] at hlt
      have hone : (1 : ℚ) ≤ c := by exact_mod_cast hpos
      have hm := hx.normal_of_le x.roundsFrom_magnitude (by linarith)
      have hfrom : x.RoundsFrom (c * 10 ^ (0 : ℤ)) := by
        rw [zpow_zero, mul_one]
        exact x.roundsFrom_shortest.between x.roundsFrom_magnitude hlt.le h
      have hname := Binary.shortest_value hm hc hfrom
      rw [zpow_zero, mul_one] at hname
      exact absurd hname hlt.ne

namespace NumberFormat

variable {f : NumberFormat} {x : Float} {a : Binary}

theorem places_default : ({} : NumberFormat).places = 9 := by
  decide

/-! ## Rounding -/

/-- A value as rounding leaves it: near a multiple of the last place, unless it is large. -/
def IsRounded (a : Binary) : Prop :=
  a.magnitude < 2251799 → ∃ k : ℕ, a.RoundsFrom (k * 10 ^ (-9 : ℤ))

/-- **What rounding leaves.** -/
theorem round_spec (hf : f.places = 9) (hx : isFinite x = true) :
    f.round x = 0 ∨ ∃ a, Parts.ofFloat (f.round x) = .finite a ∧ a.m ≠ 0 ∧ IsRounded a := by
  obtain ⟨a, hx⟩ := isFinite_iff.mp hx
  rcases round_cases hf hx with ⟨hsame, hlarge⟩ | hzero | ⟨b, k, hb, hb0, -, hgrid⟩
  · rw [hsame]
    exact .inr ⟨a, hx, Binary.m_ne_zero (by linarith), fun hsmall => by linarith⟩
  · exact .inl hzero
  · exact .inr ⟨b, hb, hb0, fun _ => ⟨k, hgrid⟩⟩

/-! ## The leading digit -/

section

variable (ha : a.Canonical) (h0 : a.m ≠ 0)

include ha h0

/-- The exponent of a value compared with a power of ten that is a value. -/
theorem le_exponent_iff {n : ℕ} (hn : n < 15) :
    (n : ℤ) ≤ (Scientific.ofBinary a).exponent ↔ 10 ^ n ≤ a.magnitude := by
  obtain ⟨hleads, -, -, hvalue⟩ := Binary.ofBinary_spec ha h0
  have hinteger := ha.le_shortest_iff (Nat.pow_lt_pow_right (by norm_num) hn)
  push_cast at hinteger
  rw [← Scientific.pow_le_magnitude_iff hleads, hvalue, zpow_natCast, hinteger]

end

/-- A result that does not fit is not below ten. -/
theorem one_le_exponent (hx : Parts.ofFloat x = .finite a) (h0 : a.m ≠ 0)
    (hrounded : IsRounded a) (hlong : ¬ (Scientific.ofBinary a).standard.length ≤ 12) :
    1 ≤ (Scientific.ofBinary a).exponent := by
  have ha := canonical_of_ofFloat hx
  obtain ⟨hleads, -, -, -⟩ := Binary.ofBinary_spec ha h0
  by_contra hsmall
  have hmag : a.magnitude < 10 ^ 1 := by
    rw [← not_le, ← le_exponent_iff ha h0 (by norm_num)]
    exact hsmall
  obtain ⟨k, hk⟩ := hrounded (by linarith)
  have hm : 2 ^ 52 ≤ a.m := by
    refine ha.normal_of_le hk ?_
    have hk1 := ha.one_le_multiple h0 hk
    rw [Binary.ten_zpow_neg_nine]
    linarith
  -- its name stands on the grid of nine decimal places
  have hplace : a.leadingPlace - 1 < 1 := by
    refine (zpow_lt_zpow_iff_right₀ (by norm_num : (1 : ℚ) < 10)).mp ?_
    exact (Binary.leadingPlace_bounds h0).1.trans_lt (by simpa using hmag)
  obtain ⟨j, hj⟩ := Binary.exists_shortest_on_grid hm hk (by omega)
  have hform : Scientific.ofBinary a = .ofDec a.negative ⟨j, -9⟩ := by
    rw [Scientific.ofBinary, if_neg h0]
    exact Scientific.ofDec_eq_of_value a.negative (Binary.coefficient_shortest_ne_zero ha h0) hj
  refine hlong (length_standard_le hleads (by omega) ?_)
  have := Scientific.length_trim_le (numeral j)
  rw [hform, Scientific.ofDec]
  simp only
  omega

/-! ## Fitting -/

theorem atLeast_exponentFrom : a.atLeast exponentFrom = true ↔ 10 ^ 12 ≤ a.magnitude := by
  have hcast : ((exponentFrom : ℕ) : ℚ) = 10 ^ 12 := by
    rw [exponentFrom, Nat.pow_eq, Nat.cast_pow, Nat.cast_ofNat]
  rw [Binary.atLeast_iff, hcast]

theorem fit_zero : fit {} 0 = signed false (spell [0]) := by
  decide +kernel

theorem standard_zero : (Scientific.ofFloat 0).standard = signed false (spell [0]) := by
  decide +kernel

/-- **The three ways to write a result.** A name of up to twelve characters is the text.
Any other is written with an exponent if the leading digit stands at `10^12` or above, and
cut if it does not; then it stands at ten or above. -/
theorem fit_cases (hf : f = {}) (hx : Parts.ofFloat x = .finite a) (h0 : a.m ≠ 0)
    (hrounded : IsRounded a) :
    ((Scientific.ofBinary a).standard.length ≤ 12 ∧
        f.fit x = (Scientific.ofBinary a).standard) ∨
      (12 < (Scientific.ofBinary a).standard.length ∧ 12 ≤ (Scientific.ofBinary a).exponent ∧
        f.fit x = (Scientific.ofBinary a).exponential 5) ∨
      (12 < (Scientific.ofBinary a).standard.length ∧ 1 ≤ (Scientific.ofBinary a).exponent ∧
        (Scientific.ofBinary a).exponent ≤ 11 ∧
        f.fit x = dropFinalPoints ((Scientific.ofBinary a).standard.take 12)) := by
  subst hf
  have ha := canonical_of_ofFloat hx
  have hlarge : (Parts.ofFloat x).atLeast exponentFrom = true ↔
      12 ≤ (Scientific.ofBinary a).exponent := by
    rw [hx, Parts.atLeast, atLeast_exponentFrom, ← le_exponent_iff ha h0 (by norm_num)]
    rfl
  have hfit : fit {} x =
      if (Scientific.ofBinary a).standard.length ≤ 12 then (Scientific.ofBinary a).standard
      else if (Parts.ofFloat x).atLeast exponentFrom then (Scientific.ofBinary a).exponential 5
      else dropFinalPoints ((Scientific.ofBinary a).standard.take 12) := by
    rw [fit, ofFloat_of_finite hx]
  by_cases hfits : (Scientific.ofBinary a).standard.length ≤ 12
  · exact .inl ⟨hfits, by rw [hfit, if_pos hfits]⟩
  · have hlow := one_le_exponent hx h0 hrounded hfits
    rw [if_neg hfits] at hfit
    by_cases he : 12 ≤ (Scientific.ofBinary a).exponent
    · exact .inr (.inl ⟨by omega, he, by rw [hfit, if_pos (hlarge.mpr he)]⟩)
    · refine .inr (.inr ⟨by omega, hlow, by omega, ?_⟩)
      rw [hfit, if_neg (fun h => he (hlarge.mp h))]

end NumberFormat

end PocketCalc
