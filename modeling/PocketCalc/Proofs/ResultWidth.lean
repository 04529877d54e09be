import PocketCalc.Proofs.DenotedNumber
import PocketCalc.Proofs.FittedResult

/-!
# How wide a result is

The display has twelve places. A text that fits them is left as it is and a text that is
cut is cut to them, but the width of exponential notation is not looked at again: five
decimal places take the seven characters of the mantissa, a mark, and a sign with up to
three digits, and the minus sign of a negative result takes a place in addition.

* `length_exponential` — the width of exponential notation.
* `format_length` — **which results take thirteen places; no result takes more.**
-/

namespace PocketCalc

open Decimal

namespace Decimal.Scientific

variable {s : Scientific} (h : Leads s.digits)

include h

/-- With five decimal places the exponent has three digits if the rounded number is `10^100`
or more, and then a negative number takes thirteen characters. -/
theorem length_exponential (hlow : 1 ≤ s.exponent) (hup : s.exponent < 309) :
    (s.exponential 5).length ≤ 13 ∧ (12 < (s.exponential 5).length ↔
      s.negative = true ∧ 10 ^ 100 ≤ s.roundedMagnitude 6) := by
  have hdigits := leads_roundDigits (n := 5 + 1) h s.exponent (by norm_num)
  have hlarge := pow_le_magnitude_iff
    (s := ⟨s.negative, (roundDigits s.digits s.exponent (5 + 1)).1,
      (roundDigits s.digits s.exponent (5 + 1)).2⟩) hdigits (n := (100 : ℕ))
  rw [magnitude_roundDigits s.negative s.digits s.exponent (by norm_num), zpow_natCast] at hlarge
  have hcarry := roundDigits_exponent s.digits s.exponent (5 + 1)
  have hmantissa : (mantissa (roundDigits s.digits s.exponent (5 + 1)).1).length = 5 + 1 + 1 := by
    rw [length_mantissa (by rw [length_roundDigits]; norm_num), length_roundDigits]
  rw [hlarge, exponential_of_leads h, length_signed, List.length_append, List.length_cons,
    hmantissa]
  simp only
  generalize (roundDigits s.digits s.exponent (5 + 1)).2 = e at hcarry ⊢
  have hthree : (signedExponent e).length ≤ 3 + 1 := length_signedExponent_le (by omega)
  have htwo : (signedExponent e).length ≤ 2 + 1 ↔ e < 100 := by
    rw [length_signedExponent_le_iff (by omega)]
    omega
  cases s.negative with
  | false => simp; omega
  | true => simp; omega

end Decimal.Scientific

namespace NumberFormat

/-- What is left of a number that is cut to twelve places is far from `-10^100`. -/
theorem cut_denotes {s : Scientific} (h : Leads s.digits) (hlow : 1 ≤ s.exponent)
    (hup : s.exponent ≤ 11) :
    ∃ n, denoted? (dropFinalPoints (s.standard.take 12)) = some n ∧ -10 ^ 12 ≤ n := by
  obtain ⟨hwhole, hlength⟩ := wholeDigits_of_pos h (show 0 < s.exponent + 1 by omega)
  rw [Scientific.cut_standard h (by omega)]
  have hfront := hwhole.take (k := if s.negative then 11 else 11 + 1) (by split <;> norm_num)
  refine ⟨_, denoted?_signed_pointed s.negative hfront.ne_nil, ?_⟩
  generalize List.take _ (fractionDigits _ _) = fraction
  have hdigits : numeralValue ((wholeDigits s.digits (s.exponent + 1)).take
      (if s.negative then 11 else 11 + 1)) + 1 ≤ 10 ^ 12 := by
    refine (numeralValue_lt _).trans_le (Nat.pow_le_pow_right (by norm_num) ?_)
    rw [List.length_take, hlength]
    omega
  generalize List.take _ (wholeDigits _ _) = whole at hdigits ⊢
  have hdigits' : (numeralValue whole + 1 : ℚ) ≤ 10 ^ 12 := by exact_mod_cast hdigits
  obtain ⟨hbelow, habove⟩ := whole_bounds whole fraction
  have hpos : (0 : ℚ) ≤ numeralValue whole := Nat.cast_nonneg _
  cases s.negative with
  | false =>
    show _ ≤ numeralValue (whole ++ fraction) * (10 : ℚ) ^ (-(fraction.length : ℤ))
    linarith
  | true =>
    show _ ≤ -(numeralValue (whole ++ fraction) * (10 : ℚ) ^ (-(fraction.length : ℤ)))
    linarith

/-- **The width of a result.** A result takes up to twelve places, or thirteen if its name
does not fit and the number that its text denotes is `-10^100` or below. -/
theorem format_length (v : Float) (hv : isFinite v = true) :
    ∃ shown n, ({} : NumberFormat).format v = .ok shown ∧ denoted? shown = some n ∧
      shown.length ≤ 13 ∧
      (12 < shown.length ↔
        12 < (Scientific.ofFloat (({} : NumberFormat).round v)).standard.length ∧
          n ≤ -10 ^ 100) := by
  rw [format, if_pos hv]
  rcases round_spec places_default hv with hzero | ⟨a, hx, h0, hrounded⟩
  · refine ⟨_, signedNumber false (numeralValue [0]), rfl, ?_, ?_⟩
    · rw [hzero, fit_zero]
      exact denoted?_signed_spell false (by simp)
    · rw [hzero, fit_zero, standard_zero]
      simp [signed, spell]
  · have ha := canonical_of_ofFloat hx
    obtain ⟨hleads, -, -, hvalue⟩ := Binary.ofBinary_spec ha h0
    rw [ofFloat_of_finite hx]
    rcases fit_cases rfl hx h0 hrounded with
      ⟨hfits, hfit⟩ | ⟨hlong, hlarge, hfit⟩ | ⟨hlong, hlow, hup, hfit⟩
    · refine ⟨_, _, rfl, by rw [hfit]; exact denoted?_standard hleads, ?_⟩
      rw [hfit]
      exact ⟨by omega, fun h => absurd hfits (by omega), fun h => absurd hfits (by omega)⟩
    · have hrange : (Scientific.ofBinary a).magnitude < overflowFrom := by
        rw [hvalue]
        exact ha.lt_overflowFrom a.roundsFrom_shortest
      obtain ⟨hthirteen, hiff⟩ := Scientific.length_exponential hleads (by omega)
        (Scientific.exponent_lt hleads hrange)
      refine ⟨_, _, rfl, by rw [hfit]; exact denoted?_rounded hleads 5, ?_⟩
      rw [hfit, hiff, signedNumber_le_neg (Scientific.roundedMagnitude_nonneg _ _) (by positivity)]
      exact ⟨hthirteen, fun h => ⟨hlong, h⟩, fun h => h.2⟩
    · obtain ⟨n, hn, hfar⟩ := cut_denotes hleads hlow hup
      refine ⟨_, n, rfl, by rw [hfit, hn], ?_⟩
      have hcut : ((Scientific.ofBinary a).standard.take 12).length ≤ 12 := List.length_take_le _ _
      have hshort := (length_dropFinalPoints_le _).trans hcut
      rw [hfit]
      refine ⟨by omega, fun h => absurd hshort (by omega), fun h => absurd h.2 ?_⟩
      norm_num at hfar ⊢
      linarith

/-- Exponential notation does not look at the width. -/
theorem thirteen_places :
    isFinite (-1.23456789e100) = true ∧
      ∃ shown, ({} : NumberFormat).format (-1.23456789e100) = .ok shown ∧ shown.length = 13 :=
  ⟨by decide +kernel, "-1.23457e+100".toList, by decide +kernel, by decide⟩

theorem format_length_of_negative :
    isFinite (-1.23456789e100) = true ∧
      ({} : NumberFormat).format (-1.23456789e100) = .ok "-1.23457e+100".toList ∧
        ∃ n, denoted? "-1.23457e+100".toList = some n ∧ n ≤ -10 ^ 100 := by
  have hfinite : isFinite (-1.23456789e100) = true := by decide +kernel
  have hformat : ({} : NumberFormat).format (-1.23456789e100) = .ok "-1.23457e+100".toList := by
    decide +kernel
  obtain ⟨shown, n, hshown, hn, -, hwide⟩ := format_length (-1.23456789e100) hfinite
  obtain rfl : "-1.23457e+100".toList = shown := Except.ok.inj (hformat.symm.trans hshown)
  exact ⟨hfinite, hformat, n, hn, (hwide.mp (by decide)).2⟩

end NumberFormat

end PocketCalc
