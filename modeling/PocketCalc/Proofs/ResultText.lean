import PocketCalc.NumberFormat
import PocketCalc.Proofs.NumberReading

/-!
# The text of a result

A result that is written whole, or with an exponent, is a complete number. One that is
cut to the width of the display is a beginning of such a number, and a beginning need
not be a number: cutting may leave nothing, a sign, or an exponent mark without digits.

* `isComplete_standard`, `isComplete_exponential` — the two ways to write all of it.
* `NumberFormat.Cuts` — when a result is cut, and `NumberFormat.fit_of_cuts` to what.
* `isSome_readFloat?_iff_endsOnDigit` — **which results are numbers again**: those that
  end on a digit.
-/

namespace PocketCalc

open Decimal

/-! ## Digits -/

theorem isDigit_toChar (d : Digit) : d.toChar.isDigit = true := by
  revert d; decide

theorem isDigit_of_mem_spell {ds : List Digit} : ∀ c ∈ spell ds, c.isDigit = true := by
  intro c hc
  obtain ⟨d, _, rfl⟩ := List.mem_map.mp hc
  exact isDigit_toChar d

theorem isDigit_of_mem_zeros {n : Nat} : ∀ c ∈ zeros n, c.isDigit = true := by
  intro c hc
  rw [List.eq_of_mem_replicate hc]
  rfl

theorem numeralOnto_ne_nil (fuel n : Nat) (tail : List Digit) : numeralOnto fuel n tail ≠ [] := by
  induction fuel generalizing n tail with
  | zero => simp [numeralOnto]
  | succ fuel ih =>
      unfold numeralOnto
      split
      · simp
      · exact ih _ _

theorem spell_ne_nil {ds : List Digit} (h : ds ≠ []) : spell ds ≠ [] := by
  simpa [spell] using h

/-! ## Stages of the parts of a number -/

namespace Stage

/-- Digits continue a part that ends on digits. -/
theorem after?_digits {s : Stage} (hs : s.isComplete = true) {text : List Char}
    (h : ∀ c ∈ text, c.isDigit = true) : s.after? text = some s := by
  induction text with
  | nil => rfl
  | cons c text ih =>
      have hc := h c (by simp)
      have hnext : s.next? c = some s := by
        cases s <;> simp_all [next?, isComplete]
      rw [after?_cons, hnext]
      exact ih fun c hc => h c (List.mem_cons_of_mem _ hc)

/-- Digits begin a part of the number. -/
theorem after?_first_digits {s s' : Stage} (hs : ∀ c : Char, c.isDigit = true → s.next? c = some s')
    (hs' : s'.isComplete = true) {text : List Char} (hne : text ≠ [])
    (h : ∀ c ∈ text, c.isDigit = true) : s.after? text = some s' := by
  cases text with
  | nil => exact absurd rfl hne
  | cons c text =>
      rw [after?_cons, hs c (h c (by simp))]
      exact after?_digits hs' fun c hc => h c (List.mem_cons_of_mem _ hc)

/-- Behind a mantissa an exponent completes the number. -/
theorem after?_exponent {s : Stage} (hs : s.isMantissa = true) (e : Int) :
    s.after? ('e' :: signedExponent e) = some exponent := by
  have hmark : s.next? 'e' = some mark := by
    cases s <;> simp_all [next?, isMantissa]
  have hsign : mark.next? (if 0 ≤ e then '+' else '-') = some markSign := by
    split <;> rfl
  rw [after?_cons, hmark, Option.bind_some, signedExponent, after?_cons, hsign, Option.bind_some]
  exact after?_first_digits (fun c hc => by simp [next?, hc]) rfl
    (spell_ne_nil (numeralOnto_ne_nil _ _ _)) isDigit_of_mem_spell

/-- Digits with a point behind the first of them are a mantissa. -/
theorem after?_point (whole fraction : List Char) (hwhole : whole ≠ [])
    (hw : ∀ c ∈ whole, c.isDigit = true) (hfraction : fraction ≠ [])
    (hf : ∀ c ∈ fraction, c.isDigit = true) :
    sign.after? (whole ++ '.' :: fraction) = some .fraction := by
  have hfront : sign.after? whole = some .whole :=
    after?_first_digits (fun c hc => by simp [next?, hc]) rfl hwhole hw
  rw [after?_append, hfront, Option.bind_some, after?_cons]
  exact after?_first_digits (fun c hc => by simp [next?, hc]) rfl hfraction hf

end Stage

/-- A sign in front of a number changes nothing about its stage. -/
theorem stage?_signed {text : List Char} {s : Stage} (h : Stage.sign.after? text = some s)
    (hs : s.isComplete = true) (negative : Bool) : IsComplete (signed negative text) := by
  refine ⟨s, ?_, hs⟩
  cases negative with
  | true => exact h
  | false =>
      cases text with
      | nil =>
          obtain rfl := Option.some.inj h
          cases hs
      | cons c text =>
          rw [Stage.after?_cons] at h
          by_cases hc : c.isDigit = true
          · have hminus := (ne_of_isDigit hc).2.1
            simpa [signed, stage?, Stage.next?, hc, hminus] using h
          · simp [Stage.next?, hc] at h

/-! ## Scientific forms -/

/-- Digits with a point among them, where a form without digits has its point behind
the leading place. -/
theorem after?_placePoint {ds : List Digit} {point : Int} (h : ds ≠ [] ∨ point = 1) :
    ∃ s, Stage.sign.after? (placePoint ds point) = some s ∧ s.isMantissa = true := by
  unfold placePoint
  split
  · -- all digits behind the point
    next hpoint =>
    have hds : ds ≠ [] := by
      rcases h with h | h
      · exact h
      · omega
    refine ⟨.fraction, ?_, rfl⟩
    refine Stage.after?_point ['0'] _ (by simp) (by simp) (by simp [spell_ne_nil hds]) ?_
    intro c hc
    rcases List.mem_append.mp hc with hc | hc
    · exact isDigit_of_mem_zeros c hc
    · exact isDigit_of_mem_spell c hc
  · split
    · -- all digits in front of it, and zeros up to it
      next hpoint hlength =>
      refine ⟨.whole, ?_, rfl⟩
      refine Stage.after?_first_digits (fun c hc => by simp [Stage.next?, hc]) rfl ?_ ?_
      · rcases h with h | rfl
        · simp [spell_ne_nil h]
        · by_cases hds : ds = []
          · simp [hds, zeros]
          · simp [spell_ne_nil hds]
      · intro c hc
        rcases List.mem_append.mp hc with hc | hc
        · exact isDigit_of_mem_spell c hc
        · exact isDigit_of_mem_zeros c hc
    · -- digits on both sides
      next hpoint hlength =>
      refine ⟨.fraction, ?_, rfl⟩
      refine Stage.after?_point _ _ ?_ isDigit_of_mem_spell ?_ isDigit_of_mem_spell
      · apply spell_ne_nil
        intro hnil
        rcases List.take_eq_nil_iff.mp hnil with h0 | hds
        · omega
        · simp [hds] at hlength
          omega
      · apply spell_ne_nil
        intro hnil
        have := List.drop_eq_nil_iff.mp hnil
        omega

/-- A mantissa is one digit, or one digit, a point and more digits. -/
theorem after?_mantissa {ds : List Digit} (h : ds ≠ []) :
    ∃ s, Stage.sign.after? (mantissa ds) = some s ∧ s.isMantissa = true := by
  match ds with
  | [] => exact absurd rfl h
  | [d] => exact ⟨.whole, by simp [mantissa, Stage.next?, isDigit_toChar], rfl⟩
  | d :: d' :: ds =>
      refine ⟨.fraction, ?_, rfl⟩
      exact Stage.after?_point [d.toChar] _ (by simp) (by simp [isDigit_toChar])
        (spell_ne_nil (by simp)) isDigit_of_mem_spell

/-- A mantissa with an exponent is a number. -/
theorem after?_scientific {ds : List Digit} (h : ds ≠ []) (e : Int) :
    Stage.sign.after? (mantissa ds ++ 'e' :: signedExponent e) = some .exponent := by
  obtain ⟨s, hs, hm⟩ := after?_mantissa h
  rw [Stage.after?_append, hs]
  exact Stage.after?_exponent hm e

namespace Decimal.Scientific

/-- The form has digits, or none and then the exponent zero. -/
def Proper (s : Scientific) : Prop :=
  s.digits ≠ [] ∨ s.exponent = 0

theorem trim_ne_nil {ds : List Digit} (h : ds ≠ []) : trim ds ≠ [] := by
  cases ds with
  | nil => exact absurd rfl h
  | cons d ds =>
      unfold trim
      split <;> simp

/-- Every floating-point value has a proper form. -/
theorem proper_ofFloat (x : Float) : (ofFloat x).Proper := by
  unfold ofFloat
  split
  · exact .inr rfl
  · exact .inr rfl
  · next b _ =>
    left
    unfold ofBinary
    split
    · simp
    · exact trim_ne_nil (numeralOnto_ne_nil _ _ _)

/-- **Whole results are numbers**: written in the usual way, -/
theorem isComplete_standard {s : Scientific} (h : s.Proper) : IsComplete s.standard := by
  unfold standard
  split
  · exact isComplete_digit rfl
  · split
    · next hrange =>
      have hpoint : s.digits ≠ [] ∨ s.exponent + 1 = 1 := h.imp_right fun h => by omega
      obtain ⟨stage, hstage, hm⟩ := after?_placePoint hpoint
      exact stage?_signed hstage (Stage.isComplete_of_isMantissa hm) _
    · next hrange =>
      have hdigits : s.digits ≠ [] := by
        rcases h with h | h
        · exact h
        · omega
      exact stage?_signed (after?_scientific hdigits _) rfl _

end Decimal.Scientific

/-! ## Exponential notation -/

/-- Rounding leaves exactly the wanted number of digits. -/
theorem length_roundDigits (ds : List Digit) (e : Int) (wanted : Nat) :
    (roundDigits ds e wanted).1.length = wanted := by
  have hkept : wanted ≤ ds.length → (ds.take wanted).length = wanted := List.length_take_of_le
  unfold roundDigits
  split
  · next hdrop =>
    have := List.drop_eq_nil_iff.mp hdrop
    simp
    omega
  · next next rest hdrop =>
    have hlength : wanted < ds.length := by
      have := congrArg List.length hdrop
      simp at this
      omega
    have htake := hkept (Nat.le_of_lt hlength)
    have hincrement := length_increment (ds.take wanted)
    split
    · exact htake
    · split
      · next kept hk => simpa [hk, htake] using hincrement
      · next kept hk =>
        have hk' : kept.length = wanted := by simpa [hk, htake] using hincrement
        simp [hk']

/-- or with an exponent. -/
theorem Decimal.Scientific.isComplete_exponential (s : Scientific) (places : Nat) :
    IsComplete (s.exponential places) := by
  have hdigits : (roundDigits s.digits s.exponent (places + 1)).1 ≠ [] := by
    intro hnil
    have hlength := length_roundDigits s.digits s.exponent (places + 1)
    simp [hnil] at hlength
  exact stage?_signed (after?_scientific hdigits _) rfl _

/-! ## Fitting the display -/

/-- A text ends on a digit. -/
def EndsOnDigit (text : List Char) : Prop :=
  ∃ c, text.getLast? = some c ∧ c.isDigit = true

/-- A beginning of a number without points at its end stands anywhere but behind a
point. -/
theorem dropFinalPoints_stage {text : List Char} {s : Stage} (h : stage? text = some s) :
    ∃ s', stage? (dropFinalPoints text) = some s' ∧ s' ≠ .point := by
  by_cases hs : s = .point
  · subst hs
    cases endsAs_of_stage? h with
    | digit _ hcomplete => cases hcomplete
    | @point front hfront =>
        have hdrop : dropFinalPoints (front ++ ['.']) = dropFinalPoints front :=
          List.rdropWhile_concat_pos _ _ _ rfl
        rw [hdrop, dropFinalPoints_of_digit (getLast?_of_isMantissa hfront rfl)]
        exact ⟨.whole, hfront, by simp⟩
  · rw [dropFinalPoints_of_getLast?_ne ((endsAs_of_stage? h).getLast?_ne hs)]
    exact ⟨s, h, hs⟩

/-- **Of the stages that are not behind a point, the numbers end on a digit.** -/
theorem isComplete_iff_endsOnDigit {text : List Char} {s : Stage} (h : stage? text = some s) :
    IsComplete text ↔ EndsOnDigit text := by
  constructor
  · exact IsComplete.getLast?
  · rintro ⟨c, hlast, hc⟩
    have hne := ne_of_isDigit hc
    cases endsAs_of_stage? h with
    | start => cases hlast
    | sign => simp at hlast; exact absurd hlast.symm hne.2.1
    | digit _ hcomplete => exact ⟨s, h, hcomplete⟩
    | point _ => simp at hlast; exact absurd hlast.symm hne.2.2.2
    | mark _ _ => simp at hlast; exact absurd hlast.symm hne.2.2.1
    | markSign _ _ hc' =>
        simp at hlast
        subst hlast
        rcases hc' with rfl | rfl
        · exact absurd rfl hne.1
        · exact absurd rfl hne.2.1

/-- The same texts are those that can be read. -/
theorem isSome_readFloat?_iff_endsOnDigit {text : List Char} {s : Stage}
    (h : stage? text = some s) (hs : s ≠ .point) :
    (readFloat? text).isSome = true ↔ EndsOnDigit text := by
  rw [isSome_readFloat? h, Stage.isDraft_eq_isComplete hs, ← isComplete_iff_endsOnDigit h]
  constructor
  · exact fun hcomplete => ⟨s, h, hcomplete⟩
  · rintro ⟨s', hs', hcomplete⟩
    obtain rfl : s = s' := Option.some.inj (h.symm.trans hs')
    exact hcomplete

namespace NumberFormat

/-- The result does not fit the display and is too small for an exponent, so that its
text is cut. -/
def Cuts (f : NumberFormat) (rounded : Float) : Prop :=
  f.width < (Scientific.ofFloat rounded).standard.length ∧
    (Parts.ofFloat rounded).atLeast exponentFrom = false

/-- A result that is not cut is written as a complete number. -/
theorem isComplete_fit_of_not_cuts {f : NumberFormat} {rounded : Float}
    (h : ¬ f.Cuts rounded) : IsComplete (f.fit rounded) := by
  unfold fit
  simp only
  split
  · exact Scientific.isComplete_standard (Scientific.proper_ofFloat rounded)
  · next hlength =>
    split
    · exact Scientific.isComplete_exponential _ _
    · next hsmall =>
      exact absurd ⟨Nat.lt_of_not_le hlength, by simpa using hsmall⟩ h

/-- A result that is cut shows the first characters of its text, without points at
their end. -/
theorem fit_of_cuts {f : NumberFormat} {rounded : Float} (h : f.Cuts rounded) :
    f.fit rounded =
      dropFinalPoints ((Scientific.ofFloat rounded).standard.take f.width) := by
  unfold fit
  simp only
  rw [if_neg (Nat.not_le_of_lt h.1), if_neg (by simp [h.2])]

/-- Whatever is displayed is a beginning of a number, and not one that ends on a point. -/
theorem fit_stage (f : NumberFormat) (rounded : Float) :
    ∃ s, stage? (f.fit rounded) = some s ∧ s ≠ .point := by
  by_cases h : f.Cuts rounded
  · rw [fit_of_cuts h]
    obtain ⟨s, hs, _⟩ := Scientific.isComplete_standard (Scientific.proper_ofFloat rounded)
    obtain ⟨s', hs'⟩ := stage?_of_prefix (List.take_prefix f.width _) hs
    exact dropFinalPoints_stage hs'
  · obtain ⟨s, hs, hcomplete⟩ := isComplete_fit_of_not_cuts h
    exact ⟨s, hs, by rintro rfl; cases hcomplete⟩

/-- Only a display without any width shows nothing of a result. -/
theorem width_of_fit_eq_nil {f : NumberFormat} {rounded : Float} (h : f.fit rounded = []) :
    f.width = 0 := by
  by_contra hwidth
  by_cases hcuts : f.Cuts rounded
  · rw [fit_of_cuts hcuts] at h
    obtain ⟨s, hs, hcomplete⟩ := Scientific.isComplete_standard (Scientific.proper_ofFloat rounded)
    cases htext : (Scientific.ofFloat rounded).standard with
    | nil =>
        rw [htext] at hs
        obtain rfl : Stage.start = s := Option.some.inj hs
        cases hcomplete
    | cons ch rest =>
        -- the first character is kept, so it would have to be a point
        obtain ⟨n, hn⟩ := Nat.exists_eq_succ_of_ne_zero hwidth
        rw [htext, hn, List.take_succ_cons, dropFinalPoints_eq, List.rdropWhile_eq_nil_iff] at h
        obtain rfl : ch = '.' := by simpa using h ch (by simp)
        rw [htext] at hs
        cases hs
  · obtain ⟨c, hlast, _⟩ := (isComplete_fit_of_not_cuts hcuts).getLast?
    rw [h] at hlast
    cases hlast

end NumberFormat

end PocketCalc
