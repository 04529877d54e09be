import PocketCalc.Proofs.DenotedNumber
import PocketCalc.Proofs.FittedResult

/-!
# The number that a result shows

A result is a floating-point number, and its text may be cut or rounded to fit the
display. What the text denotes is compared with the number itself.

* `Binary.floor_magnitude` — the digits in front of the point are those of the number.
* `LosesDigit` — the results whose text is cut in front of its point: with the minus sign
  they take thirteen places, and without it they are below `10^12`.
* `whole_part_shown` — **all other texts without an exponent show the whole part.**
-/

namespace PocketCalc

open Decimal

namespace Decimal.Binary

variable {a : Binary}

section

variable (ha : a.Canonical) (h0 : a.m ≠ 0)

include ha h0

/-- **The digits in front of the point are the whole part of the number**, not only of its
name. -/
theorem floor_magnitude (he : (Scientific.ofBinary a).exponent ≤ 11) :
    ⌊a.magnitude⌋ =
      numeralValue (wholeDigits (Scientific.ofBinary a).digits
        ((Scientific.ofBinary a).exponent + 1)) := by
  obtain ⟨hleads, -, -, hvalue⟩ := ofBinary_spec ha h0
  generalize Scientific.ofBinary a = s at hleads hvalue he
  have hname : (numeralValue (wholeDigits s.digits (s.exponent + 1)) : ℚ) ≤ a.shortest.value ∧
      a.shortest.value < numeralValue (wholeDigits s.digits (s.exponent + 1)) + 1 := by
    have h := whole_bounds (wholeDigits s.digits (s.exponent + 1))
      (fractionDigits s.digits (s.exponent + 1))
    rw [value_placedDigits] at h
    rwa [← hvalue]
  have hsmall : numeralValue (wholeDigits s.digits (s.exponent + 1)) < 10 ^ 12 := by
    refine (numeralValue_lt _).trans_le (Nat.pow_le_pow_right (by norm_num) ?_)
    by_cases hpoint : 0 < s.exponent + 1
    · rw [(wholeDigits_of_pos hleads hpoint).2]
      omega
    · rw [wholeDigits, if_pos (by omega)]
      norm_num
  generalize numeralValue (wholeDigits s.digits (s.exponent + 1)) = n at hname hsmall ⊢
  have hbelow := (ha.le_shortest_iff (c := n) (by omega)).mp hname.1
  have habove : ¬ ((n + 1 : ℕ) : ℚ) ≤ a.magnitude := by
    rw [← ha.le_shortest_iff (by omega), not_le]
    exact_mod_cast hname.2
  rw [Int.floor_eq_iff]
  push_cast at habove ⊢
  exact ⟨hbelow, not_le.mp habove⟩

end

end Decimal.Binary

namespace NumberFormat

variable {a : Binary}

/-- The results whose text is cut in front of its point. -/
def LosesDigit (r : Binary) : Prop :=
  -10 ^ 12 < r.value ∧ r.value ≤ -10 ^ 11

/-- What a text that denotes `n` shows of the result `x`, which is the number `r`. -/
structure Shows (shown : List Char) (n : ℚ) (x : Float) (r : Binary) : Prop where
  /-- Without an exponent a text is the name of the number or the front of it, and it has
  all that the name has in front of the point. -/
  whole : 'e' ∉ shown → shown <+: (Scientific.ofFloat x).standard ∧ (¬ LosesDigit r →
    wholePart shown = wholePart (Scientific.ofFloat x).standard ∧ |n - r.value| < 1)
  /-- But some texts have lost the last digit in front of the point. -/
  lost : LosesDigit r → 'e' ∉ shown ∧
    wholePart shown = (wholePart (Scientific.ofFloat x).standard).dropLast ∧
    n = -⌊r.magnitude / 10⌋
  /-- With an exponent a text is the name or has six digits. -/
  exponential : 'e' ∈ shown →
    (shown = (Scientific.ofFloat x).standard ∧ readFloat? shown = some x) ∨
      n = signedNumber r.negative ((Scientific.ofFloat x).roundedMagnitude 6)

/-! ## Texts without an exponent -/

section

variable (ha : a.Canonical) (h0 : a.m ≠ 0)

include ha h0

theorem losesDigit_iff :
    LosesDigit a ↔ a.negative = true ∧ (Scientific.ofBinary a).exponent = 11 := by
  have h11 := le_exponent_iff ha h0 (n := 11) (by norm_num)
  have h12 := le_exponent_iff ha h0 (n := 12) (by norm_num)
  have hpos := a.magnitude_nonneg
  unfold LosesDigit Binary.value
  cases a.negative with
  | false =>
    simp only [Bool.false_eq_true, if_false, false_and, iff_false, not_and, not_le]
    intro _
    linarith
  | true =>
    simp only [if_true, neg_lt_neg_iff, neg_le_neg_iff, true_and]
    rw [← not_le, ← h11, ← h12]
    omega

end

/-! ## The three ways to write a result -/

section

variable {x : Float} (hx : Parts.ofFloat x = .finite a) (h0 : a.m ≠ 0)

include hx h0

/-- With all the digits in front of the point a text shows the number to less than one. -/
theorem shows_pointed (hlow : -6 ≤ (Scientific.ofBinary a).exponent)
    (hup : (Scientific.ofBinary a).exponent ≤ 11) (hkeeps : ¬ LosesDigit a)
    {shown : List Char} (hpart : shown <+: (Scientific.ofBinary a).standard)
    {fraction : List Digit}
    (hshown : shown = signed a.negative (pointed (wholeDigits (Scientific.ofBinary a).digits
      ((Scientific.ofBinary a).exponent + 1)) fraction)) :
    ∃ n, denoted? shown = some n ∧ Shows shown n x a := by
  have ha := canonical_of_ofFloat hx
  obtain ⟨hleads, -, hneg, -⟩ := Binary.ofBinary_spec ha h0
  have hname := Scientific.standard_pointed hleads (by omega)
  have hfloor := Int.floor_eq_iff.mp (Binary.floor_magnitude ha h0 hup)
  have hne := wholeDigits_ne_nil hleads.ne_nil ((Scientific.ofBinary a).exponent + 1)
  rw [hneg] at hname
  generalize wholeDigits _ _ = whole at hshown hname hfloor hne
  refine ⟨_, by rw [hshown]; exact denoted?_signed_pointed a.negative hne, fun _ => ?_,
    fun hlost => absurd hlost hkeeps, fun hmark => ?_⟩
  · rw [ofFloat_of_finite hx]
    refine ⟨hpart, fun _ => ⟨?_, ?_⟩⟩
    · rw [hshown, hname, wholePart_signed_pointed, wholePart_signed_pointed]
    · -- both have the same whole part
      obtain ⟨hbelow, habove⟩ := whole_bounds whole fraction
      push_cast at hfloor
      rw [a.value_eq_signedNumber, abs_signedNumber_sub, abs_sub_lt_iff]
      constructor <;> linarith
  · rw [hshown] at hmark
    exact absurd hmark (not_mem_signed_pointed _ _ _)

/-- A text that fits the display. -/
theorem shows_standard (hfits : (Scientific.ofBinary a).standard.length ≤ 12) :
    ∃ n, denoted? (Scientific.ofBinary a).standard = some n ∧
      Shows (Scientific.ofBinary a).standard n x a := by
  have ha := canonical_of_ofFloat hx
  obtain ⟨hleads, -, hneg, -⟩ := Binary.ofBinary_spec ha h0
  have hlost := losesDigit_iff ha h0
  by_cases hrange : -6 ≤ (Scientific.ofBinary a).exponent ∧ (Scientific.ofBinary a).exponent ≤ 20
  · have hwide := Scientific.le_length_standard hleads hrange
    refine shows_pointed hx h0 hrange.1 (by omega) (fun h => ?_) List.prefix_rfl
      (by rw [Scientific.standard_pointed hleads hrange, hneg])
    -- twelve digits and a sign do not fit
    obtain ⟨hminus, he⟩ := hlost.mp h
    rw [hneg, hminus, if_pos rfl] at hwide
    omega
  · have hmark : 'e' ∈ (Scientific.ofBinary a).standard := by
      rw [Scientific.standard_of_leads hleads, if_neg hrange, signed_append]
      simp
    refine ⟨_, denoted?_standard hleads, fun h => absurd hmark h, fun h => ?_, fun _ => ?_⟩
    · have := (hlost.mp h).2
      omega
    · rw [ofFloat_of_finite hx]
      exact .inl ⟨rfl, readFloat?_standard hx h0⟩

/-- A text with an exponent. -/
theorem shows_exponential (he : 12 ≤ (Scientific.ofBinary a).exponent) :
    ∃ n, denoted? ((Scientific.ofBinary a).exponential 5) = some n ∧
      Shows ((Scientific.ofBinary a).exponential 5) n x a := by
  have ha := canonical_of_ofFloat hx
  obtain ⟨hleads, -, hneg, -⟩ := Binary.ofBinary_spec ha h0
  have hmark : 'e' ∈ (Scientific.ofBinary a).exponential 5 := by
    rw [Scientific.exponential_of_leads hleads, signed_append]
    simp
  refine ⟨_, denoted?_rounded hleads 5, fun h => absurd hmark h, fun h => ?_, fun _ => .inr ?_⟩
  · have := ((losesDigit_iff ha h0).mp h).2
    omega
  · rw [ofFloat_of_finite hx, hneg]

/-- A text that is cut in front of its point: the sign takes the place of a digit. -/
theorem shows_lost (h : LosesDigit a) :
    ∃ n, denoted? (dropFinalPoints ((Scientific.ofBinary a).standard.take 12)) = some n ∧
      Shows (dropFinalPoints ((Scientific.ofBinary a).standard.take 12)) n x a := by
  have ha := canonical_of_ofFloat hx
  obtain ⟨hminus, he⟩ := (losesDigit_iff ha h0).mp h
  obtain ⟨hleads, -, hneg, -⟩ := Binary.ofBinary_spec ha h0
  have hrange : -6 ≤ (Scientific.ofBinary a).exponent ∧ (Scientific.ofBinary a).exponent ≤ 20 := by
    omega
  have hcut := Scientific.cut_standard hleads hrange 11
  have hname := Scientific.standard_pointed hleads hrange
  have hfloor := Binary.floor_magnitude ha h0 he.le
  obtain ⟨hwhole, hlength⟩ := wholeDigits_of_pos hleads
    (show 0 < (Scientific.ofBinary a).exponent + 1 by omega)
  rw [hneg, hminus] at hcut hname
  generalize wholeDigits _ _ = whole at hcut hname hfloor hwhole hlength
  -- twelve digits are cut to eleven
  have htwelve : whole.length = 12 := by omega
  have hfront : whole.take 11 = whole.dropLast := by rw [List.dropLast_eq_take, htwelve]
  have hne : whole.dropLast ≠ [] := by
    rw [← hfront]
    exact (hwhole.take (by norm_num)).ne_nil
  have hnone : 11 - whole.length - 1 = 0 := by omega
  simp only [if_true, hnone, List.take_zero, pointed, hfront] at hcut
  have hmark : 'e' ∉ signed true (spell whole.dropLast) :=
    not_mem_signed true (by decide) (not_mem_spell rfl _)
  have hpart := front_of_cut (Scientific.ofBinary a).standard 12
  rw [hcut] at hpart ⊢
  refine ⟨_, denoted?_signed_spell true hne, fun _ => ?_, fun _ => ⟨hmark, ?_, ?_⟩,
    fun hmem => absurd hmem hmark⟩
  · rw [ofFloat_of_finite hx]
    exact ⟨hpart, fun hkeeps => absurd h hkeeps⟩
  · have hdrop : (signed true (spell whole)).dropLast = signed true (spell whole.dropLast) := by
      show ('-' :: spell whole).dropLast = '-' :: spell whole.dropLast
      rw [List.dropLast_cons_of_ne_nil (spell_ne_nil hwhole.ne_nil), spell, spell,
        List.map_dropLast]
    rw [ofFloat_of_finite hx, hname, wholePart_signed_pointed, wholePart_signed_spell, hdrop]
  · have htenth : ⌊a.magnitude / 10⌋ = (numeralValue whole.dropLast : ℤ) := by
      have h := Int.floor_div_natCast a.magnitude 10
      rw [hfloor] at h
      rw [numeralValue_dropLast]
      exact_mod_cast h
    rw [htenth]
    rfl

/-- A text that is cut. -/
theorem shows_cut (hlow : 1 ≤ (Scientific.ofBinary a).exponent)
    (hup : (Scientific.ofBinary a).exponent ≤ 11) :
    ∃ n, denoted? (dropFinalPoints ((Scientific.ofBinary a).standard.take 12)) = some n ∧
      Shows (dropFinalPoints ((Scientific.ofBinary a).standard.take 12)) n x a := by
  by_cases h : LosesDigit a
  · exact shows_lost hx h0 h
  · have ha := canonical_of_ofFloat hx
    obtain ⟨hleads, -, hneg, -⟩ := Binary.ofBinary_spec ha h0
    -- there is room for the sign and all digits in front of the point
    have hroom : (wholeDigits (Scientific.ofBinary a).digits
        ((Scientific.ofBinary a).exponent + 1)).length ≤ if a.negative then 11 else 11 + 1 := by
      rw [(wholeDigits_of_pos hleads (by omega)).2]
      split
      · next hminus =>
        have : (Scientific.ofBinary a).exponent ≠ 11 := fun he =>
          h ((losesDigit_iff ha h0).mpr ⟨hminus, he⟩)
        omega
      · omega
    have hcut := Scientific.cut_standard hleads (by omega) 11
    rw [hneg, List.take_of_length_le hroom] at hcut
    exact shows_pointed hx h0 (by omega) hup h (front_of_cut _ 12) hcut

end

/-- Zero is shown as it is. -/
theorem shows_zero : ∃ n r, denoted? (fit {} 0) = some n ∧ Parts.ofFloat 0 = .finite r ∧
    Shows (fit {} 0) n 0 r := by
  have hmark : 'e' ∉ signed false (spell [0]) := by decide
  have hkeeps : ¬ LosesDigit ⟨false, 0, -1074, false⟩ := fun h => by
    have := h.2
    rw [Binary.value_of_zero rfl] at this
    norm_num at this
  rw [fit_zero]
  refine ⟨_, ⟨false, 0, -1074, false⟩, denoted?_signed_spell false (by simp), by decide +kernel,
    fun _ => ?_, fun h => absurd h hkeeps, fun h => absurd h hmark⟩
  rw [standard_zero, Binary.value_of_zero rfl]
  refine ⟨List.prefix_rfl, fun _ => ⟨rfl, ?_⟩⟩
  show |(numeralValue [0] : ℚ) - 0| < 1
  norm_num [numeralValue_cons]

/-- **What the text of a result shows.** Without an exponent it has the whole part of the
result and is off by less than one, unless the result takes twelve digits and a sign in
front of the point: then the last of these digits is lost. With an exponent it is the
result or rounds it to six digits. -/
theorem whole_part_shown (v : Float) (hv : isFinite v = true) :
    ∃ shown n r, ({} : NumberFormat).format v = .ok shown ∧ denoted? shown = some n ∧
      Parts.ofFloat (({} : NumberFormat).round v) = .finite r ∧
      Shows shown n (({} : NumberFormat).round v) r := by
  rw [format, if_pos hv]
  rcases round_spec places_default hv with hzero | ⟨a, ha, h0, hrounded⟩
  · obtain ⟨n, r, hn, hr, hshows⟩ := shows_zero
    rw [hzero]
    exact ⟨_, n, r, rfl, hn, hr, hshows⟩
  · obtain ⟨n, hn, hshows⟩ : ∃ n, denoted? (({} : NumberFormat).fit (round {} v)) = some n ∧
        Shows (({} : NumberFormat).fit (round {} v)) n (round {} v) a := by
      rcases fit_cases rfl ha h0 hrounded with
        ⟨hfits, hfit⟩ | ⟨-, hlarge, hfit⟩ | ⟨-, hlow, hup, hfit⟩
      · rw [hfit]
        exact shows_standard ha h0 hfits
      · rw [hfit]
        exact shows_exponential ha h0 hlarge
      · rw [hfit]
        exact shows_cut ha h0 hlow hup
    exact ⟨_, n, a, rfl, hn, ha, hshows⟩

/-- Twelve digits and a sign: the text is a tenth of the number. -/
theorem whole_part_shown_of_twelve_digits :
    isFinite (-123456789012) = true ∧
      ({} : NumberFormat).format (-123456789012) = .ok "-12345678901".toList ∧
        ∃ n r, denoted? "-12345678901".toList = some n ∧
          Parts.ofFloat (({} : NumberFormat).round (-123456789012)) = .finite r ∧
          Shows "-12345678901".toList n (({} : NumberFormat).round (-123456789012)) r := by
  have hfinite : isFinite (-123456789012) = true := by decide +kernel
  have hformat : ({} : NumberFormat).format (-123456789012) = .ok "-12345678901".toList := by
    decide +kernel
  obtain ⟨shown, n, r, hshown, hn, hr, hshows⟩ := whole_part_shown (-123456789012) hfinite
  obtain rfl : "-12345678901".toList = shown := Except.ok.inj (hformat.symm.trans hshown)
  exact ⟨hfinite, hformat, n, r, hn, hr, hshows⟩

end NumberFormat

end PocketCalc
