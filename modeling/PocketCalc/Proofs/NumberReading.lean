import PocketCalc.Proofs.NumberText

/-!
# Reading number texts

The reader of number literals and the stages of a number text agree: of the texts that
have a stage, exactly the drafts are read (`isSome_readFloat?`). The proof goes through
the parts of the reader from the right end of a number to its left: digits of an
exponent, exponent, fraction, whole part, sign.
-/

namespace PocketCalc

open Decimal

namespace Stage

/-! ## Digits -/

theorem isSome_ofChar? (c : Char) : (Digit.ofChar? c).isSome = c.isDigit := by
  rw [Digit.isSome_ofChar?, Char.isDigit]
  have h48 : (48 ≤ c.toNat) ↔ c.val ≥ '0'.val := by
    rw [ge_iff_le, UInt32.le_iff_toNat_le]
    rfl
  have h58 : (c.toNat < 58) ↔ c.val ≤ '9'.val := by
    rw [UInt32.le_iff_toNat_le]
    exact Nat.lt_succ_iff
  simp only [h48, h58]

theorem takeDigits_digit {c : Char} (h : c.isDigit = true) (cs : List Char) :
    ∃ d, takeDigits (c :: cs) = (d :: (takeDigits cs).1, (takeDigits cs).2) := by
  obtain ⟨d, hd⟩ := Option.isSome_iff_exists.mp ((isSome_ofChar? c).trans h)
  exact ⟨d, by rw [takeDigits, hd]⟩

theorem takeDigits_other {c : Char} (h : c.isDigit = false) (cs : List Char) :
    takeDigits (c :: cs) = ([], c :: cs) := by
  have hnone : Digit.ofChar? c = none := by
    rw [← Option.not_isSome_iff_eq_none, isSome_ofChar?, h]
    exact Bool.false_ne_true
  rw [takeDigits, hnone]

/-! ## Exponent -/

/-- Digits of an exponent are read to the end. -/
theorem takeDigits_exponent {cs : List Char} {s : Stage}
    (h : exponent.after? cs = some s) : s = exponent ∧ (takeDigits cs).2 = [] := by
  induction cs with
  | nil => exact ⟨(Option.some.inj h).symm, rfl⟩
  | cons c cs ih =>
      rw [after?_cons] at h
      by_cases hc : c.isDigit = true
      · obtain ⟨d, hd⟩ := takeDigits_digit hc cs
        simp only [next?, hc, if_true, Option.bind_some] at h
        rw [hd]
        exact ih h
      · simp [next?, hc] at h

/-- Behind the sign of an exponent there is a number exactly if digits follow. -/
theorem wholeDigits?_markSign {cs : List Char} {s : Stage}
    (h : markSign.after? cs = some s) : (wholeDigits? cs).isSome = s.isDraft := by
  cases cs with
  | nil =>
      obtain rfl := Option.some.inj h
      rfl
  | cons c cs =>
      rw [after?_cons] at h
      by_cases hc : c.isDigit = true
      · simp only [next?, hc, if_true, Option.bind_some] at h
        obtain ⟨rfl, hrest⟩ := takeDigits_exponent h
        obtain ⟨d, hd⟩ := takeDigits_digit hc cs
        simp [wholeDigits?, hd, hrest, isDraft]
      · simp [next?, hc] at h

/-- An exponent is read exactly if it has digits. -/
theorem exponent?_mark {cs : List Char} {s : Stage} (h : mark.after? cs = some s) :
    (exponent? ('e' :: cs)).isSome = s.isDraft := by
  cases cs with
  | nil =>
      obtain rfl := Option.some.inj h
      rfl
  | cons c cs =>
      rw [after?_cons] at h
      by_cases hc : c = '+' ∨ c = '-'
      · simp only [next?, hc, if_true, Option.bind_some] at h
        have hdigits := wholeDigits?_markSign h
        rcases hc with rfl | rfl <;> simpa [exponent?, takeSign] using hdigits
      · simp [next?, hc] at h

/-! ## Fraction and whole part -/

/-- Behind the digits of a fraction an exponent may follow. -/
theorem exponent?_fraction {cs : List Char} {s : Stage} (h : fraction.after? cs = some s) :
    (exponent? (takeDigits cs).2).isSome = s.isDraft := by
  induction cs with
  | nil =>
      obtain rfl := Option.some.inj h
      rfl
  | cons c cs ih =>
      rw [after?_cons] at h
      by_cases hc : c.isDigit = true
      · obtain ⟨d, hd⟩ := takeDigits_digit hc cs
        simp only [next?, hc, if_true, Option.bind_some] at h
        rw [hd]
        exact ih h
      · rw [takeDigits_other (by simpa using hc)]
        by_cases he : c = 'e'
        · subst he
          exact exponent?_mark h
        · simp [next?, hc, he] at h

/-- Behind a point a fraction and an exponent may follow. -/
theorem exponent?_point {cs : List Char} {s : Stage} (h : point.after? cs = some s) :
    (exponent? (takeDigits cs).2).isSome = s.isDraft := by
  cases cs with
  | nil =>
      obtain rfl := Option.some.inj h
      rfl
  | cons c cs =>
      rw [after?_cons] at h
      by_cases hc : c.isDigit = true
      · obtain ⟨d, hd⟩ := takeDigits_digit hc cs
        simp only [next?, hc, if_true, Option.bind_some] at h
        rw [hd]
        exact exponent?_fraction h
      · simp [next?, hc] at h

/-- Behind whole digits a fraction and an exponent may follow. -/
theorem exponent?_whole {cs : List Char} {s : Stage} (h : whole.after? cs = some s) :
    (exponent? (takeFraction (takeDigits cs).2).2).isSome = s.isDraft := by
  induction cs with
  | nil =>
      obtain rfl := Option.some.inj h
      rfl
  | cons c cs ih =>
      rw [after?_cons] at h
      by_cases hc : c.isDigit = true
      · obtain ⟨d, hd⟩ := takeDigits_digit hc cs
        simp only [next?, hc, if_true, Option.bind_some] at h
        rw [hd]
        exact ih h
      · rw [takeDigits_other (by simpa using hc)]
        by_cases hpoint : c = '.'
        · subst hpoint
          exact exponent?_point h
        · by_cases he : c = 'e'
          · subst he
            exact exponent?_mark h
          · simp [next?, hc, hpoint, he] at h

/-! ## The number -/

/-- A text that begins with a digit is no name of an infinity. -/
theorem lowered_ne {c : Char} (hc : c.isDigit = true) (cs : List Char) :
    lowered (c :: cs) ≠ "inf".toList ∧ lowered (c :: cs) ≠ "infinity".toList ∧
      lowered (c :: cs) ≠ "nan".toList := by
  have hlower : c.toLower = c := by
    have hdigit : c.val.toNat ≤ 57 := by
      rw [← isSome_ofChar?, Digit.isSome_ofChar?] at hc
      simp only [Bool.and_eq_true, decide_eq_true_eq] at hc
      exact Nat.le_of_lt_succ hc.2
    delta Char.toLower
    rw [dif_neg]
    rintro ⟨hupper, _⟩
    have : 65 ≤ c.val.toNat := UInt32.le_iff_toNat_le.mp hupper
    omega
  have hi : c ≠ 'i' := by rintro rfl; cases hc
  have hn : c ≠ 'n' := by rintro rfl; cases hc
  simp [lowered, hlower, hi, hn]

/-- The number behind a sign, or without one. -/
theorem parseUnsigned?_sign (negative : Bool) {cs : List Char} {s : Stage}
    (h : sign.after? cs = some s) :
    (Literal.parseUnsigned? negative cs).isSome = s.isDraft := by
  cases cs with
  | nil =>
      obtain rfl := Option.some.inj h
      rfl
  | cons c cs =>
      rw [after?_cons] at h
      by_cases hc : c.isDigit = true
      · simp only [next?, hc, if_true, Option.bind_some] at h
        obtain ⟨d, hd⟩ := takeDigits_digit hc cs
        obtain ⟨hinf, hinfinity, hnan⟩ := lowered_ne hc cs
        simp only [Literal.parseUnsigned?, hinf, hinfinity, hnan, hd, or_self, if_false]
        simpa using exponent?_whole h
      · simp [next?, hc] at h

end Stage

/-- **Of the beginnings of a number exactly the drafts are read.** -/
theorem isSome_readFloat? {text : List Char} {s : Stage} (h : stage? text = some s) :
    (readFloat? text).isSome = s.isDraft := by
  rw [readFloat?, Option.isSome_map, Literal.parse?]
  cases text with
  | nil =>
      obtain rfl := Option.some.inj h
      rfl
  | cons c cs =>
      rw [stage?, Stage.after?_cons] at h
      by_cases hsign : c = '-'
      · subst hsign
        exact Stage.parseUnsigned?_sign true h
      · have hplus : c ≠ '+' := by
          rintro rfl
          simp [Stage.next?] at h
        have hunsigned : takeSign (c :: cs) = (false, c :: cs) := by
          simp [takeSign, hsign, hplus]
        rw [hunsigned]
        refine Stage.parseUnsigned?_sign false (s := s) ?_
        rw [Stage.after?_cons]
        simpa [Stage.next?, hsign] using h

/-- A complete number is read. -/
theorem IsComplete.isSome_readFloat? {text : List Char} (h : IsComplete text) :
    (readFloat? text).isSome = true := by
  obtain ⟨s, hs, hcomplete⟩ := h
  rw [PocketCalc.isSome_readFloat? hs]
  exact Stage.isDraft_of_isComplete hcomplete

end PocketCalc
