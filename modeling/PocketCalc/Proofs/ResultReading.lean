import PocketCalc.Proofs.DigitRounding
import PocketCalc.Proofs.FittedResult

/-!
# Reading a result back and writing it again

The text of a result is read back as a number, and this number is written again. That
the second text is the first one without the zeros that fill it up holds in each of the
three ways to write a result:

* `repeats_standard` — a text that fits the display is the name of its number;
* `repeats_exponential` — so are the six digits of an exponential text, but from `10^21`
  on the zeros behind them are not written again;
* `repeats_pointed` — a text that was cut has at most twelve digits, which are its name.

`repeats_fit_round` puts them together: **this is what becomes of every result.**
-/

namespace PocketCalc

open Decimal

namespace NumberFormat

variable {f : NumberFormat} {x : Float} {a : Binary}

/-! ## Rounding a second time -/

/-- Scaling takes these values to where adding one half is no longer exact, and rounding
them a second time may change them. -/
def unsteady (x : Float) : Bool :=
  (Parts.ofFloat x).atLeast 2251799 && !(Parts.ofFloat x).atLeast 4503600

/-- All other results are left alone. -/
theorem round_eq_self_of_steady (hf : f.places = 9) (hx : Parts.ofFloat x = .finite a)
    (h0 : a.m ≠ 0) (hrounded : IsRounded a) (hsteady : unsteady x = false) : f.round x = x := by
  have hsteady' : a.magnitude < 2251799 ∨ 4503600 ≤ a.magnitude := by
    rw [unsteady, hx, Bool.and_eq_false_iff, Bool.not_eq_false', Parts.atLeast, Parts.atLeast,
      ← Bool.not_eq_true, Binary.atLeast_iff, Binary.atLeast_iff, not_le] at hsteady
    exact_mod_cast hsteady
  rcases hsteady' with hsmall | hlarge
  · obtain ⟨k, hk⟩ := hrounded hsmall
    refine round_eq_self hf hx h0 (k := k) ?_ hk
    by_contra hk'
    have hkq : (2251799 * 10 ^ 9 : ℚ) ≤ k := by
      have : 2251799 * 10 ^ 9 ≤ k := by omega
      exact_mod_cast this
    have := (canonical_of_ofFloat hx).le_magnitude hk (n := 2251799) (by norm_num) (by norm_num) (by
      rw [Binary.ten_zpow_neg_nine]
      push_cast
      linarith)
    push_cast at this
    linarith
  · exact round_eq_self_of_large hf hx hlarge

/-! ## The three ways to write a result -/

/-- Read back and written again, a text becomes the same text without padding. -/
def Repeats (f : NumberFormat) (text : List Char) : Prop :=
  ∃ x, readFloat? text = some x ∧ isFinite x = true ∧ (unsteady x = false → f.round x = x) ∧
    f.fit x = unpadded x text

/-- The name of a result is read back. -/
theorem repeats_standard (hf : f.places = 9) (hx : Parts.ofFloat x = .finite a) (h0 : a.m ≠ 0)
    (hrounded : IsRounded a) (hfit : f.fit x = (Scientific.ofBinary a).standard) :
    f.Repeats (f.fit x) := by
  obtain ⟨hleads, htrim, -, -⟩ := Binary.ofBinary_spec (canonical_of_ofFloat hx) h0
  refine ⟨x, by rw [hfit, readFloat?_standard hx h0], isFinite_of_finite hx,
    round_eq_self_of_steady hf hx h0 hrounded, ?_⟩
  rw [hfit, Scientific.unpadded_standard x hleads htrim]

/-- The comparison with `10^21`, which is a floating-point number. -/
theorem atLeast_of_exponent (hx : Parts.ofFloat x = .finite a) {ds : List Digit} (hds : Leads ds)
    (hlength : ds.length = 6) {e : ℤ}
    (h : a.RoundsFrom (Scientific.magnitude ⟨a.negative, ds, e⟩)) :
    (Parts.ofFloat x).atLeast (Nat.pow 10 21) = decide (21 ≤ e) := by
  have ha := canonical_of_ofFloat hx
  rw [hx, Parts.atLeast, Bool.eq_iff_iff, Binary.atLeast_iff, decide_eq_true_iff]
  constructor
  · -- below, the digits do not reach the value in front of `10^21`
    intro hlarge
    by_contra he
    obtain ⟨b, hb, -, hbmag⟩ := exists_canonical (n := 7629394531249999) (by norm_num)
      (by norm_num) (j := 17) (by norm_num) (by norm_num)
    have hvalue : numeralValue ds ≤ 999999 := by
      have := numeralValue_lt ds
      rw [hlength] at this
      omega
    have hle : Scientific.magnitude ⟨a.negative, ds, e⟩ ≤ b.magnitude := by
      calc Scientific.magnitude ⟨a.negative, ds, e⟩
          = numeralValue ds * 10 ^ (e + 1 - ds.length) := rfl
        _ ≤ (999999 : ℕ) * 10 ^ (15 : ℤ) := by
            gcongr
            · norm_num
            · omega
        _ ≤ b.magnitude := by rw [hbmag]; norm_num
    have := ha.magnitude_mono hb h b.roundsFrom_magnitude hle
    rw [hbmag] at this
    norm_num at this hlarge
    linarith
  · intro he
    obtain ⟨b, hb, -, hbmag⟩ := exists_canonical (n := 476837158203125) (by norm_num)
      (by norm_num) (j := 21) (by norm_num) (by norm_num)
    have hlow : (10 : ℚ) ^ e ≤ Scientific.magnitude ⟨a.negative, ds, e⟩ :=
      (Scientific.magnitude_bounds (s := ⟨a.negative, ds, e⟩) hds).1
    have hpow : (10 : ℚ) ^ (21 : ℤ) ≤ 10 ^ e := zpow_le_zpow_right₀ (by norm_num) he
    have := hb.magnitude_mono ha b.roundsFrom_magnitude h (by
      rw [hbmag]
      norm_num at hpow ⊢
      linarith)
    rw [hbmag] at this
    norm_num at this ⊢
    linarith

/-- Six digits are too long for the display with all the zeros that a small exponent puts
in front of the point, and with zeros behind them they are too long in no other case. -/
theorem fit_of_six_digits (hf : f = {}) (negative : Bool) {ds : List Digit} (hds : Leads ds)
    (hlength : ds.length = 6) {e : ℤ} (he : 12 ≤ e) (hup : e < 309)
    (hform : Scientific.ofFloat x = ⟨negative, Scientific.trim ds, e⟩)
    (hlarge : (Parts.ofFloat x).atLeast exponentFrom = true) :
    f.fit x = signed negative
      (mantissa (if e ≤ 20 then ds else Scientific.trim ds) ++ 'e' :: signedExponent e) := by
  subst hf
  have hstandard := Scientific.standard_of_leads (s := ⟨negative, Scientific.trim ds, e⟩)
    (Scientific.leads_trim hds)
  have htrim := Scientific.length_trim_le ds
  rw [fit, hform, if_pos hlarge, Scientific.exponential_trim negative hds hlength, hstandard]
  by_cases hrange : e ≤ 20
  · have hlong := (length_signed_le negative (placePoint (Scientific.trim ds) (e + 1))).1
    rw [length_placePoint_of_le (by omega) (by omega)] at hlong
    have hrange' : -6 ≤ e ∧ e ≤ 20 := by omega
    simp only [if_pos hrange', if_pos hrange]
    refine if_neg ?_
    show ¬ _ ≤ 12
    omega
  · have hrange' : ¬ (-6 ≤ e ∧ e ≤ 20) := by omega
    simp only [if_neg hrange', if_neg hrange]
    -- without zeros to drop it is the same text, and with one to drop it fits
    by_cases hsame : Scientific.trim ds = ds
    · rw [hsame, ite_self]
    · refine if_pos ?_
      show _ ≤ 12
      have hdropped := Scientific.length_trim_lt hsame
      have hsigned := (length_signed_le negative
        (mantissa (Scientific.trim ds) ++ 'e' :: signedExponent e)).2
      have hmantissa := length_mantissa_le (Scientific.trim ds)
      have hsuffix := length_signedExponent_le (e := e) (by omega)
      rw [List.length_append, List.length_cons] at hsigned
      omega

/-- A text in exponential notation. -/
theorem repeats_exponential (hf : f = {}) (negative : Bool) {ds : List Digit} (hds : Leads ds)
    (hlength : ds.length = 6) {e : ℤ} (he : 12 ≤ e)
    (hfinite : Scientific.magnitude ⟨negative, ds, e⟩ < overflowFrom) :
    f.Repeats (signed negative (mantissa ds ++ 'e' :: signedExponent e)) := by
  obtain ⟨x, hread, hrounds⟩ := exists_readFloat?_exponential negative hds.ne_nil e
  obtain ⟨a, hx, hneg, hfrom⟩ := hrounds.exists_finite hfinite
  subst hneg
  have hlow : (10 : ℚ) ^ e ≤ Scientific.magnitude ⟨a.negative, ds, e⟩ :=
    (Scientific.magnitude_bounds (s := ⟨a.negative, ds, e⟩) hds).1
  have hlarge : 10 ^ 12 ≤ a.magnitude := by
    have hpow : (10 : ℚ) ^ (12 : ℤ) ≤ 10 ^ e := zpow_le_zpow_right₀ (by norm_num) he
    have := (canonical_of_ofFloat hx).le_magnitude hfrom (n := 10 ^ 12) (by norm_num)
      (by norm_num) (by
        push_cast
        exact hpow.trans hlow)
    exact_mod_cast this
  have hup : e < 309 := Scientific.exponent_lt (s := ⟨a.negative, ds, e⟩) hds hfinite
  have hexponent : (Parts.ofFloat x).atLeast exponentFrom = true := by
    rw [hx]
    exact atLeast_exponentFrom.mpr hlarge
  have hform := ofFloat_of_digits hx hds (by omega) (by omega) hfrom
  refine ⟨x, hread, isFinite_of_finite hx, round_eq_self_of_steady (by rw [hf, places_default]) hx
    (Binary.m_ne_zero (by linarith)) (fun hsmall => by linarith), ?_⟩
  rw [fit_of_six_digits hf a.negative hds hlength he hup hform hexponent,
    unpadded_exponential x a.negative hds, atLeast_of_exponent hx hds hlength hfrom]
  by_cases hrange : e ≤ 20
  · rw [if_pos hrange, if_neg (by simp; omega)]
  · rw [if_neg hrange, if_pos (by simp; omega)]

/-- A text without an exponent. -/
theorem repeats_pointed (hf : f = {}) (negative : Bool) {whole fraction : List Digit}
    (hwhole : Leads whole) (htwo : 2 ≤ whole.length)
    (hfits : (signed negative (pointed whole fraction)).length ≤ 12) :
    f.Repeats (signed negative (pointed whole fraction)) := by
  subst hf
  have hds : Leads (whole ++ fraction) := hwhole.append fraction
  have hunsigned := (length_signed_le negative (pointed whole fraction)).1
  rw [length_pointed] at hunsigned
  have hshort : whole.length ≤ 12 := by omega
  have hfraction : fraction.length ≤ 9 ∧ whole.length + fraction.length ≤ 12 := by
    by_cases hnil : fraction = []
    · subst hnil
      exact ⟨Nat.zero_le 9, hshort⟩
    · rw [if_neg hnil] at hunsigned
      omega
  have hlength : (whole ++ fraction).length = whole.length + fraction.length := List.length_append
  rw [pointed_eq_placePoint hwhole.ne_nil] at hfits ⊢
  obtain ⟨x, hread, hrounds⟩ := exists_readFloat?_placePoint negative hds.ne_nil whole.length
  -- the number stands on the grid of nine decimal places
  have hgrid := Binary.exists_mul_pow (numeralValue (whole ++ fraction))
    (e := -9) (f := (whole.length : ℤ) - (whole ++ fraction).length) (by omega)
  have hvalue : (numeralValue (whole ++ fraction) : ℚ) *
      10 ^ ((whole.length : ℤ) - (whole ++ fraction).length) =
        Scientific.magnitude ⟨negative, whole ++ fraction, whole.length - 1⟩ := by
    unfold Scientific.magnitude
    congr 2
    ring
  rw [hvalue] at hrounds hgrid
  obtain ⟨hlow, hup⟩ := Scientific.magnitude_bounds
    (s := ⟨negative, whole ++ fraction, whole.length - 1⟩) hds
  simp only [sub_add_cancel] at hlow hup
  have hbound : (10 : ℚ) ^ (whole.length : ℤ) ≤ 10 ^ (12 : ℤ) :=
    zpow_le_zpow_right₀ (by norm_num) (by exact_mod_cast hshort)
  obtain ⟨a, hx, hneg, hfrom⟩ := hrounds.exists_finite
    (lt_overflowFrom (hup.trans_le (hbound.trans (by norm_num))))
  subst hneg
  have h0 : a.m ≠ 0 := by
    have hone : (1 : ℚ) ≤ 10 ^ ((whole.length : ℤ) - 1) := one_le_zpow₀ (by norm_num) (by omega)
    have := (canonical_of_ofFloat hx).le_magnitude hfrom (n := 1) (by norm_num) (by norm_num)
      (by push_cast; exact hone.trans hlow)
    exact Binary.m_ne_zero (one_pos.trans_le (by exact_mod_cast this))
  refine ⟨x, hread, isFinite_of_finite hx, round_eq_self_of_steady places_default hx h0
    (fun _ => ⟨_, hgrid ▸ hfrom⟩), ?_⟩
  -- and it is written with its digits
  have hform := ofFloat_of_digits hx hds (by omega) (e := whole.length - 1) (by omega)
    hfrom
  have hstandard := Scientific.standard_of_leads
    (s := ⟨a.negative, Scientific.trim (whole ++ fraction), whole.length - 1⟩)
    (Scientific.leads_trim hds)
  have hrange : -6 ≤ (whole.length : ℤ) - 1 ∧ (whole.length : ℤ) - 1 ≤ 20 := by omega
  simp only [if_pos hrange, sub_add_cancel] at hstandard
  rw [unpadded_placePoint x a.negative hds, fit, hform, hstandard, if_pos]
  rw [← withoutZeros_placePoint hds, ← withoutZeros_signed]
  exact (length_withoutZeros_le _).trans hfits

/-! ## Results too long for the display -/

/-- A result written with an exponent. -/
theorem repeats_of_large (hf : f = {}) (hx : Parts.ofFloat x = .finite a) (h0 : a.m ≠ 0)
    (hlarge : 12 ≤ (Scientific.ofBinary a).exponent) :
    f.Repeats ((Scientific.ofBinary a).exponential 5) := by
  have ha := canonical_of_ofFloat hx
  obtain ⟨hleads, -, -, hvalue⟩ := Binary.ofBinary_spec ha h0
  generalize Scientific.ofBinary a = s at hleads hvalue hlarge
  -- six digits, and the number they stand for is in range
  have hhalf := magnitude_roundDigits_le (n := 5 + 1) s.negative s.digits s.exponent (by norm_num)
  have hdigits := leads_roundDigits (n := 5 + 1) hleads s.exponent (by norm_num)
  have hlength := length_roundDigits s.digits s.exponent (5 + 1)
  have hsix := hdigits.pow_le
  have hseven := numeralValue_lt (roundDigits s.digits s.exponent (5 + 1)).1
  have hbelow := ha.lt_overflowFrom a.roundsFrom_shortest
  rw [← hvalue] at hbelow
  rw [hlength] at hsix hseven
  rw [Scientific.exponential_of_leads hleads]
  refine repeats_exponential hf s.negative hdigits hlength ?_ ?_
  · rcases roundDigits_exponent s.digits s.exponent (5 + 1) with he | he <;> rw [he] <;> omega
  · rw [Scientific.magnitude]
    simp only [hlength]
    exact mul_lt_overflowFrom hsix hseven (hhalf.trans_lt hbelow)

/-- A name that was cut behind its second digit or later. -/
theorem repeats_cut (hf : f = {}) {s : Scientific} (hs : Leads s.digits) (hlow : 1 ≤ s.exponent)
    (hup : s.exponent ≤ 20) : f.Repeats (dropFinalPoints (s.standard.take 12)) := by
  have hfits : (dropFinalPoints (s.standard.take 12)).length ≤ 12 :=
    (length_dropFinalPoints_le _).trans (List.length_take_le _ _)
  obtain ⟨hwhole, hlength⟩ := wholeDigits_of_pos hs (show 0 < s.exponent + 1 by omega)
  rw [Scientific.cut_standard hs (by omega)] at hfits ⊢
  refine repeats_pointed hf s.negative (hwhole.take (by split <;> norm_num)) ?_ hfits
  rw [List.length_take, hlength]
  split <;> omega

/-! ## All results -/

/-- The text of every result but zero. -/
theorem repeats_fit (hf : f = {}) (hx : Parts.ofFloat x = .finite a) (h0 : a.m ≠ 0)
    (hrounded : IsRounded a) : f.Repeats (f.fit x) := by
  obtain ⟨hleads, -, -, -⟩ := Binary.ofBinary_spec (canonical_of_ofFloat hx) h0
  rcases fit_cases hf hx h0 hrounded with ⟨-, hfit⟩ | ⟨-, hlarge, hfit⟩ | ⟨-, hlow, hup, hfit⟩
  · exact repeats_standard (by rw [hf, places_default]) hx h0 hrounded hfit
  · rw [hfit]
    exact repeats_of_large hf hx h0 hlarge
  · rw [hfit]
    exact repeats_cut hf hleads hlow (by omega)

/-- **What becomes of the text of a result** that is read back and written again. -/
theorem repeats_fit_round (hf : f = {}) (hx : isFinite x = true) :
    f.Repeats (f.fit (f.round x)) := by
  have hplaces : f.places = 9 := by rw [hf, places_default]
  rcases round_spec hplaces hx with hzero | ⟨a, ha, h0, hrounded⟩
  · rw [hzero, hf]
    refine ⟨0, by decide +kernel, by decide +kernel, fun _ => by decide +kernel, by decide +kernel⟩
  · exact repeats_fit hf ha h0 hrounded

end NumberFormat

end PocketCalc
