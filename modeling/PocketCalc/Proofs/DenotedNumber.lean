import PocketCalc.Proofs.DigitRounding
import PocketCalc.Proofs.NumberPadding

/-!
# The number that a text denotes

A number text is read as the nearest floating-point number. What it denotes is the exact
decimal number in front of this rounding.

* `denoted?` — the number that a text denotes.
* `denoted?_standard` — **the name of a number denotes it.**
* `denoted?_rounded` — in exponential notation it is rounded first.
* `wholePart` — a text up to its point, sign included.
-/

namespace PocketCalc.Decimal

/-- A magnitude with a sign. -/
def signedNumber (negative : Bool) (v : ℚ) : ℚ :=
  if negative then -v else v

/-- The number of a literal, `± whole.fraction · 10^exponent`. -/
def Literal.number? : Literal → Option ℚ
  | number negative whole fraction e =>
    some (signedNumber negative
      (numeralValue (whole ++ fraction) * 10 ^ (e - (fraction.length : ℤ))))
  | infinite _ => none
  | notANumber => none

/-- The number that a text denotes, before it is rounded to a floating-point number. -/
def denoted? (text : List Char) : Option ℚ :=
  (Literal.parse? text).bind Literal.number?

/-- The text up to its point. -/
def wholePart (text : List Char) : List Char :=
  text.takeWhile (· != '.')

/-! ## Signs -/

theorem abs_signedNumber_sub (negative : Bool) (v w : ℚ) :
    |signedNumber negative v - signedNumber negative w| = |v - w| := by
  cases negative with
  | false => rfl
  | true =>
    show |-v - -w| = |v - w|
    rw [neg_sub_neg, abs_sub_comm]

theorem signedNumber_le_neg {negative : Bool} {v c : ℚ} (hv : 0 ≤ v) (hc : 0 < c) :
    signedNumber negative v ≤ -c ↔ negative = true ∧ c ≤ v := by
  cases negative with
  | false =>
    have hnot : ¬ v ≤ -c := by linarith
    simpa [signedNumber] using hnot
  | true => simp [signedNumber]

theorem Binary.value_eq_signedNumber (x : Binary) :
    x.value = signedNumber x.negative x.magnitude := rfl

/-! ## Numbers with a point -/

section

variable {whole fraction : List Digit}

theorem denoted?_pointed (negative : Bool) (hwhole : whole ≠ []) {rest : List Char} {e : ℤ}
    (hrest : ∀ c ∈ rest.head?, c.isDigit = false ∧ c ≠ '.') (he : exponent? rest = some e) :
    denoted? (signed negative (pointed whole fraction ++ rest)) =
      some (signedNumber negative
        (numeralValue (whole ++ fraction) * 10 ^ (e - (fraction.length : ℤ)))) := by
  rw [denoted?, parse?_pointed negative hwhole hrest he]
  rfl

/-- A number with nothing behind its digits. -/
theorem denoted?_signed_pointed (negative : Bool) (hwhole : whole ≠ []) :
    denoted? (signed negative (pointed whole fraction)) =
      some (signedNumber negative
        (numeralValue (whole ++ fraction) * 10 ^ (-(fraction.length : ℤ)))) := by
  have h := @denoted?_pointed whole fraction negative hwhole [] 0 (by simp) rfl
  rwa [List.append_nil, zero_sub] at h

theorem denoted?_signed_spell (negative : Bool) (hwhole : whole ≠ []) :
    denoted? (signed negative (spell whole)) =
      some (signedNumber negative (numeralValue whole)) := by
  have h := @denoted?_signed_pointed whole [] negative hwhole
  rwa [pointed, if_pos rfl, List.append_nil, List.length_nil, Nat.cast_zero, neg_zero, zpow_zero,
    mul_one] at h

theorem wholePart_signed_pointed (negative : Bool) (whole fraction : List Digit) :
    wholePart (signed negative (pointed whole fraction)) = signed negative (spell whole) := by
  have hdigits : ∀ c ∈ signed negative (spell whole), (c != '.') = true := by
    intro c hc
    simp only [bne_iff_ne, ne_eq]
    rintro rfl
    exact not_mem_signed negative (by decide) (not_mem_spell rfl whole) hc
  unfold wholePart pointed
  split
  · exact List.takeWhile_eq_self_iff.mpr hdigits
  · rw [signed_append, List.takeWhile_append_of_pos hdigits,
      List.takeWhile_cons_of_neg (by simp), List.append_nil]

theorem wholePart_signed_spell (negative : Bool) (whole : List Digit) :
    wholePart (signed negative (spell whole)) = signed negative (spell whole) := by
  have h := wholePart_signed_pointed negative whole []
  rwa [pointed, if_pos rfl] at h

end

/-- Whatever the digits behind the point are, those in front of it are the whole part. -/
theorem whole_bounds (whole fraction : List Digit) :
    (numeralValue whole : ℚ) ≤ numeralValue (whole ++ fraction) * 10 ^ (-(fraction.length : ℤ)) ∧
      (numeralValue (whole ++ fraction) : ℚ) * 10 ^ (-(fraction.length : ℤ)) <
        numeralValue whole + 1 := by
  have h := numeralValue_front_bounds whole fraction (-(fraction.length : ℤ))
  rwa [neg_add_cancel, zpow_zero, mul_one, mul_one] at h

/-! ## Scientific forms -/

theorem denoted?_placePoint (negative : Bool) {ds : List Digit} (h : ds ≠ []) (point : ℤ) :
    denoted? (signed negative (placePoint ds point)) =
      some (signedNumber negative (numeralValue ds * 10 ^ (point - ds.length))) := by
  rw [placePoint_eq h, denoted?_signed_pointed negative (wholeDigits_ne_nil h point),
    value_placedDigits]

theorem denoted?_exponential (negative : Bool) {ds : List Digit} (h : ds ≠ []) (e : ℤ) :
    denoted? (signed negative (mantissa ds ++ 'e' :: signedExponent e)) =
      some (signedNumber negative (Scientific.magnitude ⟨negative, ds, e⟩)) := by
  rw [mantissa_eq_placePoint h, placePoint_eq h,
    denoted?_pointed negative (wholeDigits_ne_nil h 1) (by simp) (exponent?_signedExponent e),
    magnitude_mantissa]

/-- **The name of a number denotes it.** -/
theorem denoted?_standard {s : Scientific} (h : Leads s.digits) :
    denoted? s.standard = some (signedNumber s.negative s.magnitude) := by
  rw [Scientific.standard_of_leads h]
  split
  · exact denoted?_placePoint s.negative h.ne_nil (s.exponent + 1)
  · exact denoted?_exponential s.negative h.ne_nil s.exponent

theorem denoted?_rounded {s : Scientific} (h : Leads s.digits) (places : ℕ) :
    denoted? (s.exponential places) =
      some (signedNumber s.negative (s.roundedMagnitude (places + 1))) := by
  have hdigits := leads_roundDigits h s.exponent (Nat.succ_pos places)
  rw [Scientific.exponential_of_leads h, denoted?_exponential s.negative hdigits.ne_nil,
    magnitude_roundDigits s.negative s.digits s.exponent (Nat.succ_pos places)]

end PocketCalc.Decimal
