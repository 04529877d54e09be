import PocketCalc.Proofs.NumberPadding

/-!
# How wide a number is

The length of a written number, and what is left of one that is cut to a width.

* `length_standard_le` — a number below ten with nine decimal places takes twelve characters.
* `cut_signed`, `cut_pointed` — **cutting a number leaves a number with fewer digits.**
* `Scientific.cut_standard` — so does cutting a name.
-/

namespace PocketCalc.Decimal

/-! ## Lengths -/

theorem length_signed (negative : Bool) (text : List Char) :
    (signed negative text).length = text.length + if negative then 1 else 0 := by
  cases negative <;> rfl

theorem length_signed_le (negative : Bool) (text : List Char) :
    text.length ≤ (signed negative text).length ∧
      (signed negative text).length ≤ text.length + 1 := by
  rw [length_signed]
  split <;> omega

theorem length_signedExponent_le_iff {e : ℤ} (h0 : e ≠ 0) {k : ℕ} :
    (signedExponent e).length ≤ k + 1 ↔ e.natAbs < 10 ^ k := by
  rw [← length_numeral_le_iff (Int.natAbs_ne_zero.mpr h0), signedExponent, List.length_cons,
    natText, spell, List.length_map, Nat.add_le_add_iff_right]

theorem length_signedExponent_le {e : ℤ} (h : e.natAbs < 1000) :
    (signedExponent e).length ≤ 4 := by
  by_cases h0 : e = 0
  · rw [h0]
    decide
  · exact (length_signedExponent_le_iff h0).mpr h

theorem length_mantissa_le (ds : List Digit) : (mantissa ds).length ≤ ds.length + 1 := by
  match ds with
  | [] => simp [mantissa]
  | [d] => simp [mantissa]
  | d :: d' :: ds => simp [mantissa, spell]

theorem length_mantissa {ds : List Digit} (h : 2 ≤ ds.length) :
    (mantissa ds).length = ds.length + 1 := by
  match ds with
  | [] => simp at h
  | [d] => simp at h
  | d :: d' :: ds => simp [mantissa, spell]

theorem length_placePoint_of_le {ds : List Digit} {point : ℤ} (hpos : 0 < point)
    (h : (ds.length : ℤ) ≤ point) : (placePoint ds point).length = point.toNat := by
  rw [placePoint, if_neg (by omega), if_pos h, List.length_append, spell, List.length_map, zeros,
    List.length_replicate]
  omega

theorem length_withoutZeros_le (text : List Char) : (withoutZeros text).length ≤ text.length := by
  unfold withoutZeros
  split
  · rw [dropFinalPoints_eq]
    exact (List.rdropWhile_prefix _ _).length_le.trans (List.rdropWhile_prefix _ _).length_le
  · exact le_rfl

/-- The point takes a place of its own, if there is one. -/
theorem length_pointed (whole fraction : List Digit) :
    (pointed whole fraction).length =
      whole.length + if fraction = [] then 0 else fraction.length + 1 := by
  unfold pointed
  split <;> simp [spell]

/-- Cutting leaves a sign where it is. -/
theorem cut_signed (negative : Bool) (text : List Char) (n : ℕ) :
    dropFinalPoints ((signed negative text).take (n + 1)) =
      signed negative (dropFinalPoints (text.take (if negative then n else n + 1))) := by
  cases negative with
  | false => rfl
  | true =>
    simp only [signed, if_true, List.take_succ_cons]
    rw [dropFinalPoints_eq, dropFinalPoints_eq, rdropWhile_cons_of_neg (by rfl)]

/-- A number that is cut is a number with fewer digits. -/
theorem cut_pointed (whole fraction : List Digit) (n : ℕ) :
    dropFinalPoints ((pointed whole fraction).take n) =
      pointed (whole.take n) (fraction.take (n - whole.length - 1)) := by
  have htake : ∀ (ds : List Digit) (n : ℕ), (spell ds).take n = spell (ds.take n) := fun ds n => by
    rw [spell, spell, List.map_take]
  by_cases hnil : fraction = []
  · subst hnil
    rw [pointed, if_pos rfl, htake, dropFinalPoints_spell, List.take_nil, pointed, if_pos rfl]
  · have hlength : (spell whole).length = whole.length := by rw [spell, List.length_map]
    rw [pointed, if_neg hnil, List.take_append, htake, hlength]
    by_cases hshort : n ≤ whole.length
    · -- the cut is in front of the point
      have hnone : n - whole.length = 0 := by omega
      rw [hnone, List.take_zero, List.append_nil, dropFinalPoints_spell, List.take_zero, pointed,
        if_pos rfl]
    · obtain ⟨k, hk⟩ := Nat.exists_eq_succ_of_ne_zero (n := n - whole.length) (by omega)
      rw [hk, List.take_succ_cons, htake, dropFinalPoints_pointed]
      rfl

/-- Cutting leaves the front of a text. -/
theorem front_of_cut (text : List Char) (n : ℕ) : dropFinalPoints (text.take n) <+: text := by
  rw [dropFinalPoints_eq]
  exact (List.rdropWhile_prefix _ _).trans (List.take_prefix _ _)

theorem length_dropFinalPoints_le (text : List Char) :
    (dropFinalPoints text).length ≤ text.length := by
  rw [dropFinalPoints_eq]
  exact (List.rdropWhile_prefix _ _).length_le

/-- A number below ten with nine decimal places fits the display. -/
theorem length_standard_le {s : Scientific} (hs : Leads s.digits) (hsmall : s.exponent ≤ 0)
    (hdigits : s.digits.length ≤ s.exponent + 10) : s.standard.length ≤ 12 := by
  have hpos := hs.length_pos
  rw [Scientific.standard_of_leads hs]
  refine (length_signed_le _ _).2.trans ?_
  split
  · by_cases hzero : s.exponent = 0
    · rw [hzero, zero_add, ← mantissa_eq_placePoint hs.ne_nil]
      have := length_mantissa_le s.digits
      omega
    · rw [placePoint, if_pos (by omega), List.length_append, spell, List.length_map, zeros,
        List.length_cons, List.length_cons, List.length_replicate]
      omega
  · have hmantissa := length_mantissa_le s.digits
    have hexponent := length_signedExponent_le (e := s.exponent) (by omega)
    rw [List.length_append, List.length_cons]
    omega

/-! ## Names without an exponent -/

namespace Scientific

variable {s : Scientific} (h : Leads s.digits) (hrange : -6 ≤ s.exponent ∧ s.exponent ≤ 20)

include h hrange

theorem standard_pointed :
    s.standard = signed s.negative (pointed (wholeDigits s.digits (s.exponent + 1))
      (fractionDigits s.digits (s.exponent + 1))) := by
  rw [standard_of_leads h, if_pos hrange, placePoint_eq h.ne_nil]

/-- The sign and the digits in front of the point take their places. -/
theorem le_length_standard :
    s.exponent + 1 + (if s.negative then 1 else 0) ≤ s.standard.length := by
  have hwhole : s.exponent + 1 ≤ (wholeDigits s.digits (s.exponent + 1)).length := by
    by_cases hpos : 0 < s.exponent + 1
    · rw [(wholeDigits_of_pos h hpos).2]
      omega
    · omega
  rw [standard_pointed h hrange, length_signed, length_pointed]
  push_cast
  omega

/-- What is left when the name is cut. -/
theorem cut_standard (n : ℕ) :
    dropFinalPoints (s.standard.take (n + 1)) = signed s.negative
      (pointed ((wholeDigits s.digits (s.exponent + 1)).take (if s.negative then n else n + 1))
        ((fractionDigits s.digits (s.exponent + 1)).take
          ((if s.negative then n else n + 1) -
            (wholeDigits s.digits (s.exponent + 1)).length - 1))) := by
  rw [standard_pointed h hrange, cut_signed, cut_pointed]

end Scientific

end PocketCalc.Decimal
