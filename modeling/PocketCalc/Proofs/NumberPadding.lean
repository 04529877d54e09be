import PocketCalc.Proofs.NumberValue

/-!
# Zeros behind the digits of a number

A result that is cut, or written with a fixed number of digits, can end on zeros. The
shortest name of the same number has none.

* `withoutZeros` — a text without the zeros at the end of its fraction.
* `withoutZeros_placePoint` — **dropping the zeros of a text is dropping them from its digits.**
* `unpadded` — what is written for the text of a result that is read back.
-/

namespace PocketCalc.Decimal

/-- A text without the zeros at the end of its fraction, and without a point that this
leaves bare. A text without a point has no fraction. -/
def withoutZeros (text : List Char) : List Char :=
  if '.' ∈ text then dropFinalPoints (text.rdropWhile (· == '0')) else text

/-! ## Dropping from the end -/

section

variable {α : Type} {p : α → Bool}

theorem rdropWhile_eq_self {as : List α} (h : ∀ a ∈ as.getLast?, p a = false) :
    as.rdropWhile p = as := by
  induction as using List.reverseRecOn with
  | nil => rfl
  | append_singleton as a _ =>
    rw [List.rdropWhile_concat, if_neg]
    simpa using h a (by simp)

/-- What is dropped behind a text of which something stays is dropped behind all of it. -/
theorem rdropWhile_append (as bs : List α) :
    (as ++ bs).rdropWhile p =
      if bs.rdropWhile p = [] then as.rdropWhile p else as ++ bs.rdropWhile p := by
  induction bs using List.reverseRecOn with
  | nil => simp
  | append_singleton bs b ih =>
    rw [← List.append_assoc, List.rdropWhile_concat, List.rdropWhile_concat]
    by_cases hb : p b = true
    · rw [if_pos hb, if_pos hb, ih]
    · rw [if_neg hb, if_neg hb, if_neg (by simp), List.append_assoc]

theorem rdropWhile_cons_of_neg {a : α} (h : p a = false) (as : List α) :
    (a :: as).rdropWhile p = a :: as.rdropWhile p := by
  rw [← List.singleton_append, rdropWhile_append]
  split
  · next hnil =>
    rw [hnil]
    exact rdropWhile_eq_self (by simpa using h)
  · rfl

end

theorem toChar_beq_zero (d : Digit) : (d.toChar == '0') = (d == 0) := by
  revert d
  decide

theorem rdropWhile_spell (ds : List Digit) :
    (spell ds).rdropWhile (· == '0') = spell (ds.rdropWhile (· == 0)) := by
  induction ds using List.reverseRecOn with
  | nil => rfl
  | append_singleton ds d ih =>
    have hspell : spell (ds ++ [d]) = spell ds ++ [d.toChar] := spell_append ds [d]
    rw [hspell, List.rdropWhile_concat, List.rdropWhile_concat, toChar_beq_zero, ih]
    split
    · rfl
    · exact hspell.symm

theorem not_mem_spell {c : Char} (hc : c.isDigit = false) (ds : List Digit) : c ∉ spell ds := by
  intro h
  rw [isDigit_of_mem_spell c h] at hc
  cases hc

theorem dropFinalPoints_spell (ds : List Digit) : dropFinalPoints (spell ds) = spell ds := by
  rw [dropFinalPoints_eq]
  refine rdropWhile_eq_self fun c hc => ?_
  have := isDigit_of_mem_spell c (List.mem_of_getLast? hc)
  simpa using (ne_of_isDigit this).2.2.2

/-! ## Numbers with a point -/

/-- A point with nothing behind it is dropped. -/
theorem dropFinalPoints_pointed (whole fraction : List Digit) :
    dropFinalPoints (spell whole ++ '.' :: spell fraction) = pointed whole fraction := by
  unfold pointed
  split
  · next hnil =>
    subst hnil
    have hbare : ('.' :: spell []).rdropWhile (· == '.') = [] := rfl
    rw [dropFinalPoints_eq, rdropWhile_append, if_pos hbare, ← dropFinalPoints_eq,
      dropFinalPoints_spell]
  · next hdigits =>
    have hdigits' : spell fraction ≠ [] := spell_ne_nil hdigits
    refine dropFinalPoints_of_digit ⟨(spell fraction).getLast hdigits', ?_, ?_⟩
    · rw [List.append_cons, List.getLast?_append_of_ne_nil _ hdigits',
        List.getLast?_eq_some_getLast]
    · exact isDigit_of_mem_spell _ (List.getLast_mem hdigits')

/-- Of a written number the zeros at the end of the fraction are dropped. -/
theorem withoutZeros_pointed (whole fraction : List Digit) :
    withoutZeros (pointed whole fraction) = pointed whole (fraction.rdropWhile (· == 0)) := by
  have hpoint : '.' ∉ spell whole := not_mem_spell rfl whole
  by_cases hnil : fraction = []
  · subst hnil
    rw [pointed, if_pos rfl, withoutZeros, if_neg hpoint]
    rfl
  · rw [pointed, if_neg hnil, withoutZeros, if_pos (by simp), rdropWhile_append,
      rdropWhile_cons_of_neg (by rfl), rdropWhile_spell, if_neg (by simp), dropFinalPoints_pointed]

/-! ## Digits in their places -/

/-- Without the zeros at the end of the digits the zeros at the end of the fraction are
gone. -/
theorem digits_trim {ds : List Digit} (h : Leads ds) (point : ℤ) :
    wholeDigits (Scientific.trim ds) point = wholeDigits ds point ∧
      fractionDigits (Scientific.trim ds) point =
        (fractionDigits ds point).rdropWhile (· == 0) := by
  have htrim := Scientific.trim_eq_rdropWhile h
  have hne := (Scientific.leads_trim h).ne_nil
  unfold wholeDigits fractionDigits
  by_cases hpoint : point ≤ 0
  · simp only [if_pos hpoint]
    rw [rdropWhile_append, ← htrim, if_neg hne]
    simp
  · simp only [if_neg hpoint]
    obtain ⟨k, hk⟩ := Scientific.exists_zeros ds
    have hlength := congrArg List.length hk
    rw [List.length_append, List.length_replicate] at hlength
    by_cases hshort : (ds.length : ℤ) ≤ point
    · have hshort' : ((Scientific.trim ds).length : ℤ) ≤ point := by omega
      simp only [if_pos hshort, if_pos hshort']
      refine ⟨?_, rfl⟩
      conv_rhs => rw [hk, List.append_assoc, ← List.replicate_add]
      congr 2
      rw [List.length_append, List.length_replicate]
      omega
    · simp only [if_neg hshort]
      have hsplit := rdropWhile_append (p := (· == (0 : Digit))) (ds.take point.toNat)
        (ds.drop point.toNat)
      rw [List.take_append_drop, ← htrim] at hsplit
      have htake : (ds.take point.toNat).length = point.toNat := by
        rw [List.length_take]
        omega
      by_cases hshort' : ((Scientific.trim ds).length : ℤ) ≤ point
      · -- everything behind the point is a zero
        simp only [if_pos hshort']
        constructor
        · conv_rhs => rw [hk]
          rw [List.take_append, List.take_of_length_le (by omega), List.take_replicate,
            Nat.min_eq_left (by omega)]
        · by_contra hfraction
          rw [if_neg (Ne.symm hfraction)] at hsplit
          have hlong := congrArg List.length hsplit
          have := List.length_pos_of_ne_nil (Ne.symm hfraction)
          rw [List.length_append] at hlong
          omega
      · simp only [if_neg hshort']
        split at hsplit
        · have hlong := congrArg List.length hsplit
          have := (List.rdropWhile_prefix (· == (0 : Digit)) (ds.take point.toNat)).length_le
          omega
        · rw [hsplit]
          exact ⟨List.take_left' htake, List.drop_left' htake⟩

/-- **Dropping the zeros of a text is dropping them from its digits.** -/
theorem withoutZeros_placePoint {ds : List Digit} (h : Leads ds) (point : ℤ) :
    withoutZeros (placePoint ds point) = placePoint (Scientific.trim ds) point := by
  obtain ⟨hwhole, hfraction⟩ := digits_trim h point
  rw [placePoint_eq h.ne_nil, placePoint_eq (Scientific.leads_trim h).ne_nil,
    withoutZeros_pointed, hwhole, hfraction]

theorem withoutZeros_mantissa {ds : List Digit} (h : Leads ds) :
    withoutZeros (mantissa ds) = mantissa (Scientific.trim ds) := by
  rw [mantissa_eq_placePoint h.ne_nil, mantissa_eq_placePoint (Scientific.leads_trim h).ne_nil,
    withoutZeros_placePoint h]

theorem withoutZeros_signed (negative : Bool) (text : List Char) :
    withoutZeros (signed negative text) = signed negative (withoutZeros text) := by
  cases negative with
  | false => rfl
  | true =>
    have hmem : '.' ∈ '-' :: text ↔ '.' ∈ text := by simp
    simp only [signed, if_true, withoutZeros, hmem]
    split
    · rw [rdropWhile_cons_of_neg (by rfl), dropFinalPoints_eq, dropFinalPoints_eq,
        rdropWhile_cons_of_neg (by rfl)]
    · rfl

/-! ## Results -/

/-- The text of a result without the zeros that only fill up its digits. An exponent
stays, and below `10^21` so do the zeros in front of it. -/
def unpadded (x : Float) (text : List Char) : List Char :=
  if 'e' ∈ text ∧ (Parts.ofFloat x).atLeast (Nat.pow 10 21) = false then text
  else withoutZeros (text.takeWhile (· != 'e')) ++ text.dropWhile (· != 'e')

theorem not_mem_signed (negative : Bool) {c : Char} (hc : c ≠ '-') {text : List Char}
    (h : c ∉ text) : c ∉ signed negative text := by
  cases negative
  · exact h
  · simpa [signed, hc] using h

/-- A number with a point has no exponent mark. -/
theorem not_mem_signed_pointed (negative : Bool) (whole fraction : List Digit) :
    'e' ∉ signed negative (pointed whole fraction) := by
  refine not_mem_signed negative (by decide) ?_
  unfold pointed
  split
  · exact not_mem_spell rfl _
  · simp [not_mem_spell (c := 'e') rfl]

theorem not_mem_signed_placePoint (negative : Bool) {ds : List Digit} (h : ds ≠ []) (point : ℤ) :
    'e' ∉ signed negative (placePoint ds point) := by
  rw [placePoint_eq h]
  exact not_mem_signed_pointed negative _ _

theorem bne_of_not_mem {text : List Char} (h : 'e' ∉ text) : ∀ c ∈ text, (c != 'e') = true := by
  intro c hc
  simp only [bne_iff_ne, ne_eq]
  rintro rfl
  exact h hc

theorem unpadded_placePoint (x : Float) (negative : Bool) {ds : List Digit} (h : Leads ds)
    (point : ℤ) :
    unpadded x (signed negative (placePoint ds point)) =
      signed negative (placePoint (Scientific.trim ds) point) := by
  have hmark := not_mem_signed_placePoint negative h.ne_nil point
  have hall := bne_of_not_mem hmark
  rw [unpadded, if_neg (fun hand => hmark hand.1), List.takeWhile_eq_self_iff.mpr hall,
    List.dropWhile_eq_nil_iff.mpr hall, List.append_nil, withoutZeros_signed,
    withoutZeros_placePoint h]

theorem unpadded_exponential (x : Float) (negative : Bool) {ds : List Digit} (h : Leads ds)
    (e : ℤ) :
    unpadded x (signed negative (mantissa ds ++ 'e' :: signedExponent e)) =
      if (Parts.ofFloat x).atLeast (Nat.pow 10 21) then
        signed negative (mantissa (Scientific.trim ds) ++ 'e' :: signedExponent e)
      else signed negative (mantissa ds ++ 'e' :: signedExponent e) := by
  have hmark := not_mem_signed_placePoint negative h.ne_nil 1
  rw [← mantissa_eq_placePoint h.ne_nil] at hmark
  have hall := bne_of_not_mem hmark
  have htake : (signed negative (mantissa ds) ++ 'e' :: signedExponent e).takeWhile (· != 'e') =
      signed negative (mantissa ds) := by
    rw [List.takeWhile_append_of_pos hall]
    simp
  have hdrop : (signed negative (mantissa ds) ++ 'e' :: signedExponent e).dropWhile (· != 'e') =
      'e' :: signedExponent e := by
    rw [List.dropWhile_append_of_pos hall]
    simp
  rw [unpadded, signed_append, htake, hdrop, withoutZeros_signed, withoutZeros_mantissa h,
    signed_append]
  by_cases hlarge : (Parts.ofFloat x).atLeast (Nat.pow 10 21) = true
  · rw [if_neg (by simp [hlarge]), if_pos hlarge]
  · rw [if_pos (by simpa using hlarge), if_neg hlarge]

/-- The name of a number has no zeros to drop. -/
theorem Scientific.unpadded_standard (x : Float) {s : Scientific} (h : Leads s.digits)
    (htrim : trim s.digits = s.digits) : unpadded x s.standard = s.standard := by
  rw [standard_of_leads h]
  split
  · rw [unpadded_placePoint x s.negative h, htrim]
  · rw [unpadded_exponential x s.negative h, htrim, ite_self]

end PocketCalc.Decimal
