import PocketCalc.Proofs.Typing

/-!
# The number being typed

The entry buffer is typed into, erased from its end, and filled again from a committed
number, which may be a result that was rounded, written with an exponent or cut. Whatever
happens to it, it stays the text of a number: `EntryText` gives the grammar

    -?D+(.D*)?   and   -?D+(.D+)?e[+-]D+

and `IsDraft.entryText` reads it off the stage that the text has reached. The digits stay
within the limit, save that a leading point brings a zero with it.

* `buffer_spells_number` — **the shape of the buffer in every reachable state.**
-/

namespace PocketCalc

/-! ## The grammar -/

/-- One digit or more. -/
def IsDigits (text : List Char) : Prop :=
  text ≠ [] ∧ ∀ ch ∈ text, ch.isDigit = true

/-- A number without its sign: digits, perhaps with a point behind them or with a fraction;
and digits, perhaps with a fraction, with an exponent. -/
inductive UnsignedEntry : List Char → Prop
  | number {m} : Typable m → UnsignedEntry m
  | point {ds} : IsDigits ds → UnsignedEntry (ds ++ ['.'])
  | exponent {m sign es} : Typable m → sign = '+' ∨ sign = '-' → IsDigits es →
      UnsignedEntry (m ++ 'e' :: sign :: es)

/-- A number while it is edited, perhaps with a minus sign. -/
def EntryText (text : List Char) : Prop :=
  ∃ negative body, text = Decimal.signed negative body ∧ UnsignedEntry body

/-! ## From stages to the grammar -/

/-- The text behind the sign of a number, by the stage it has reached. -/
inductive NumberBody : Stage → List Char → Prop
  | sign : NumberBody .sign []
  | whole {ds} : IsDigits ds → NumberBody .whole ds
  | point {ds} : IsDigits ds → NumberBody .point (ds ++ ['.'])
  | fraction {ds fs} : IsDigits ds → IsDigits fs → NumberBody .fraction (ds ++ '.' :: fs)
  | mark {m} : Typable m → NumberBody .mark (m ++ ['e'])
  | markSign {m sign} : Typable m → sign = '+' ∨ sign = '-' →
      NumberBody .markSign (m ++ ['e', sign])
  | exponent {m sign es} : Typable m → sign = '+' ∨ sign = '-' → IsDigits es →
      NumberBody .exponent (m ++ 'e' :: sign :: es)

theorem isDigits_singleton {ch : Char} (h : ch.isDigit = true) : IsDigits [ch] :=
  ⟨List.cons_ne_nil _ _, by simpa using h⟩

theorem IsDigits.concat {ds : List Char} (h : IsDigits ds) {ch : Char} (hch : ch.isDigit = true) :
    IsDigits (ds ++ [ch]) := by
  refine ⟨by simp, ?_⟩
  intro x hx
  rcases List.mem_append.mp hx with hx | hx
  · exact h.2 x hx
  · rw [List.mem_singleton.mp hx]
    exact hch

theorem NumberBody.typable_whole {text : List Char} (h : NumberBody .whole text) :
    Typable text := by
  cases h with
  | whole h => exact .whole h.1 h.2

theorem NumberBody.typable_fraction {text : List Char} (h : NumberBody .fraction text) :
    Typable text := by
  cases h with
  | fraction hds hfs => exact .fraction hds.1 hds.2 hfs.1 hfs.2

/-- One more character: the cases are those of `Stage.next?`. -/
theorem NumberBody.concat {s s' : Stage} {text : List Char} {ch : Char} (h : NumberBody s text)
    (hnext : s.next? ch = some s') : NumberBody s' (text ++ [ch]) := by
  cases h with
  | sign =>
      obtain ⟨hch, rfl⟩ : ch.isDigit = true ∧ Stage.whole = s' := by
        simpa [Stage.next?] using hnext
      exact .whole (isDigits_singleton hch)
  | whole hds =>
      by_cases hch : ch.isDigit = true
      · obtain rfl : Stage.whole = s' := by simpa [Stage.next?, hch] using hnext
        exact .whole (hds.concat hch)
      · by_cases hpoint : ch = '.'
        · subst hpoint
          obtain rfl : Stage.point = s' := Option.some.inj hnext
          exact .point hds
        · obtain ⟨rfl, rfl⟩ : ch = 'e' ∧ Stage.mark = s' := by
            simpa [Stage.next?, hch, hpoint] using hnext
          exact .mark (NumberBody.whole hds).typable_whole
  | point hds =>
      obtain ⟨hch, rfl⟩ : ch.isDigit = true ∧ Stage.fraction = s' := by
        simpa [Stage.next?] using hnext
      simpa using NumberBody.fraction hds (isDigits_singleton hch)
  | fraction hds hfs =>
      by_cases hch : ch.isDigit = true
      · obtain rfl : Stage.fraction = s' := by simpa [Stage.next?, hch] using hnext
        simpa using NumberBody.fraction hds (hfs.concat hch)
      · obtain ⟨rfl, rfl⟩ : ch = 'e' ∧ Stage.mark = s' := by
          simpa [Stage.next?, hch] using hnext
        exact .mark (NumberBody.fraction hds hfs).typable_fraction
  | mark hm =>
      obtain ⟨hch, rfl⟩ : (ch = '+' ∨ ch = '-') ∧ Stage.markSign = s' := by
        simpa [Stage.next?] using hnext
      simpa using NumberBody.markSign hm hch
  | markSign hm hsign =>
      obtain ⟨hch, rfl⟩ : ch.isDigit = true ∧ Stage.exponent = s' := by
        simpa [Stage.next?] using hnext
      simpa using NumberBody.exponent hm hsign (isDigits_singleton hch)
  | exponent hm hsign hes =>
      obtain ⟨hch, rfl⟩ : ch.isDigit = true ∧ Stage.exponent = s' := by
        simpa [Stage.next?] using hnext
      simpa using NumberBody.exponent hm hsign (hes.concat hch)

/-- Behind the sign of a number each stage is reached by its texts only. -/
theorem NumberBody.of_after? {text : List Char} {s : Stage} (h : Stage.sign.after? text = some s) :
    NumberBody s text := by
  induction text using List.reverseRecOn generalizing s with
  | nil =>
      obtain rfl : Stage.sign = s := Option.some.inj h
      exact .sign
  | append_singleton front ch ih =>
      rw [Stage.after?_append] at h
      obtain ⟨s₀, hfront, hlast⟩ := Option.bind_eq_some_iff.mp h
      have hnext : s₀.next? ch = some s := by simpa using hlast
      exact (ih hfront).concat hnext

theorem NumberBody.unsignedEntry {s : Stage} {text : List Char} (h : NumberBody s text)
    (hdraft : s.isDraft = true) : UnsignedEntry text := by
  cases h with
  | sign => cases hdraft
  | whole hds => exact .number (NumberBody.whole hds).typable_whole
  | point hds => exact .point hds
  | fraction hds hfs => exact .number (NumberBody.fraction hds hfs).typable_fraction
  | mark _ => cases hdraft
  | markSign _ _ => cases hdraft
  | exponent hm hsign hes => exact .exponent hm hsign hes

/-- So is each stage of a number, perhaps with a minus sign. -/
theorem NumberBody.of_stage? {text : List Char} {s : Stage} (h : stage? text = some s)
    (hs : s ≠ .start) :
    ∃ negative body, text = Decimal.signed negative body ∧ NumberBody s body := by
  cases text with
  | nil => exact absurd (Option.some.inj h).symm hs
  | cons ch text =>
      rw [stage?, Stage.after?_cons] at h
      by_cases hminus : ch = '-'
      · subst hminus
        exact ⟨true, text, rfl, NumberBody.of_after? h⟩
      · -- without a sign in front a digit is read as it is behind one
        have hunsigned : Stage.sign.after? (ch :: text) = some s := by
          rw [Stage.after?_cons]
          simpa [Stage.next?, hminus] using h
        exact ⟨false, ch :: text, rfl, NumberBody.of_after? hunsigned⟩

/-- **Drafts are texts of the grammar.** -/
theorem IsDraft.entryText {text : List Char} (h : IsDraft text) : EntryText text := by
  obtain ⟨s, hs, hdraft⟩ := h
  have hne : s ≠ .start := by
    rintro rfl
    cases hdraft
  obtain ⟨negative, body, rfl, hbody⟩ := NumberBody.of_stage? hs hne
  exact ⟨negative, body, rfl, hbody.unsignedEntry hdraft⟩

/-! ## What the grammar leaves out -/

theorem count_of_digits {ds : List Char} (h : ∀ ch ∈ ds, ch.isDigit = true) {ch : Char}
    (hch : ch.isDigit = false) : ds.count ch = 0 := by
  rw [List.count_eq_zero]
  intro hmem
  rw [h ch hmem] at hch
  cases hch

theorem isDigit_point : '.'.isDigit = false := rfl

theorem isDigit_mark : 'e'.isDigit = false := rfl

theorem Typable.count_point_le {m : List Char} (h : Typable m) : m.count '.' ≤ 1 := by
  cases h with
  | whole _ hds => simp [count_of_digits hds isDigit_point]
  | fraction _ hds _ hfs =>
      simp [count_of_digits hds isDigit_point, count_of_digits hfs isDigit_point]

theorem Typable.count_mark {m : List Char} (h : Typable m) : m.count 'e' = 0 := by
  cases h with
  | whole _ hds => exact count_of_digits hds isDigit_mark
  | fraction _ hds _ hfs =>
      simp [count_of_digits hds isDigit_mark, count_of_digits hfs isDigit_mark]

theorem IsDigits.head {ds : List Char} (h : IsDigits ds) :
    ∃ ch rest, ds = ch :: rest ∧ ch.isDigit = true := by
  obtain ⟨ch, rest, rfl⟩ := List.exists_cons_of_ne_nil h.1
  exact ⟨ch, rest, rfl, h.2 ch (by simp)⟩

theorem Typable.head {m : List Char} (h : Typable m) :
    ∃ ch rest, m = ch :: rest ∧ ch.isDigit = true := by
  cases h with
  | whole hne hds => exact IsDigits.head ⟨hne, hds⟩
  | @fraction _ fs hne hds _ _ =>
      obtain ⟨ch, rest, rfl, hch⟩ := IsDigits.head ⟨hne, hds⟩
      exact ⟨ch, rest ++ '.' :: fs, rfl, hch⟩

/-- A number has one point at most. -/
theorem UnsignedEntry.count_point_le {body : List Char} (h : UnsignedEntry body) :
    body.count '.' ≤ 1 := by
  cases h with
  | number hm => exact hm.count_point_le
  | point hds => simp [count_of_digits hds.2 isDigit_point]
  | exponent hm hsign hes =>
      have hes := count_of_digits hes.2 isDigit_point
      rcases hsign with rfl | rfl <;> simpa [hes] using hm.count_point_le

/-- What stands behind the exponent mark of a number is a sign and digits. -/
theorem UnsignedEntry.behind_mark {body front back : List Char} (h : UnsignedEntry body)
    (heq : body = front ++ 'e' :: back) :
    ∃ sign es, back = sign :: es ∧ (sign = '+' ∨ sign = '-') ∧ IsDigits es := by
  have hmark : body.count 'e' ≠ 0 := by simp [heq]
  cases h with
  | number hm => exact absurd hm.count_mark hmark
  | point hds => simp [count_of_digits hds.2 isDigit_mark] at hmark
  | @exponent m sign es hm hsign hes =>
      have hfront : 'e' ∉ m := List.count_eq_zero.mp hm.count_mark
      have hback : 'e' ∉ sign :: es := by
        have hes := List.count_eq_zero.mp (count_of_digits hes.2 isDigit_mark)
        rcases hsign with rfl | rfl <;> simpa using hes
      obtain ⟨_, _, rfl⟩ := (List.append_cons_inj_of_notMem hfront hback).mp heq
      exact ⟨sign, es, rfl, hsign, hes⟩

/-- Behind its sign a number begins with a digit. -/
theorem UnsignedEntry.head {body : List Char} (h : UnsignedEntry body) :
    ∃ ch rest, body = ch :: rest ∧ ch.isDigit = true := by
  cases h with
  | number hm => exact hm.head
  | point hds =>
      obtain ⟨ch, rest, rfl, hch⟩ := hds.head
      exact ⟨ch, rest ++ ['.'], rfl, hch⟩
  | @exponent m sign es hm _ _ =>
      obtain ⟨ch, rest, rfl, hch⟩ := hm.head
      exact ⟨ch, rest ++ 'e' :: sign :: es, rfl, hch⟩

namespace EntryText

variable {text : List Char}

theorem count_point_le (h : EntryText text) : text.count '.' ≤ 1 := by
  obtain ⟨negative, body, rfl, hbody⟩ := h
  cases negative with
  | false => exact hbody.count_point_le
  | true => simpa [Decimal.signed] using hbody.count_point_le

theorem behind_mark (h : EntryText text) {front back : List Char}
    (heq : text = front ++ 'e' :: back) :
    ∃ sign es, back = sign :: es ∧ (sign = '+' ∨ sign = '-') ∧ IsDigits es := by
  obtain ⟨negative, body, rfl, hbody⟩ := h
  cases negative with
  | false => exact hbody.behind_mark heq
  | true =>
      -- the mark is not the sign
      cases front with
      | nil => cases heq
      | cons ch front => exact hbody.behind_mark (List.cons.inj heq).2

/-- A sign alone is no number. -/
theorem ne_sign (h : EntryText text) : text ≠ ['-'] := by
  rintro rfl
  obtain ⟨negative, body, heq, hbody⟩ := h
  obtain ⟨ch, rest, rfl, hch⟩ := hbody.head
  cases negative with
  | true => cases heq
  | false =>
      obtain ⟨rfl, _⟩ := List.cons.inj heq
      cases hch

end EntryText

/-! ## The buffer of a calculator -/

namespace Calculator

/-- The digits of the buffer stay within the limit, and a result leaves no buffer. -/
structure Bounded (c : Calculator) : Prop where
  digits : digitCount c.buffer ≤ max 1 c.settings.digitLimit
  result : c.isResult = true → c.buffer = []

/-- **Every effect keeps the buffer bounded.** -/
theorem Bounded.step {c c' : Calculator} {e : Event} {o : Outcome} (heffect : Effect c e o c')
    (h : Bounded c) : Bounded c' := by
  cases heffect with
  | ignore => exact h
  | reject _ _ => exact h
  | @edit _ entered buffer hcount =>
      have hbefore := h.digits
      have hafter : digitCount buffer ≤ max 1 c.settings.digitLimit := by omega
      exact ⟨hafter, nofun⟩
  | clear => exact ⟨Nat.zero_le _, fun _ => rfl⟩
  | result _ => exact ⟨Nat.zero_le _, fun _ => rfl⟩
  | error => exact ⟨Nat.zero_le _, fun _ => rfl⟩
  | toggle => exact ⟨h.digits, h.result⟩

/-- **The buffer spells a number in every reachable state**, or it is empty: it is a text
of the grammar, so it has one point at most, nothing but a sign and digits behind an
exponent mark, and is no sign alone. It has no more digits than the limit allows, or one.
Where a result is shown it is empty. -/
theorem buffer_spells_number (settings : Settings) (events : List Event) :
    let c := (new settings).run events
    (c.buffer = [] ∨ EntryText c.buffer) ∧
      (c.buffer.count '.' ≤ 1 ∧
        (∀ front back, c.buffer = front ++ 'e' :: back →
          ∃ sign es, back = sign :: es ∧ (sign = '+' ∨ sign = '-') ∧ IsDigits es) ∧
        c.buffer ≠ ['-']) ∧
      digitCount c.buffer ≤ max 1 settings.digitLimit ∧
      (c.isResult = true → c.buffer = []) := by
  intro c
  have hbounded : Bounded c := by
    refine run_induction Bounded.step ?_ events
    exact ⟨Nat.zero_le _, nofun⟩
  have hsettings : c.settings = settings := run_settings _ events
  have hdigits := hbounded.digits
  rw [hsettings] at hdigits
  rcases (sound_run settings events).editable with hnil | hdraft
  · refine ⟨.inl hnil, ?_, hdigits, hbounded.result⟩
    have hbuffer : c.buffer = [] := hnil
    simp [hbuffer]
  · have htext : EntryText c.buffer := hdraft.entryText
    exact ⟨.inr htext, ⟨htext.count_point_le, fun _ _ => htext.behind_mark, htext.ne_sign⟩,
      hdigits, hbounded.result⟩

/-- With sixteen decimals `1÷30000000` is displayed as `3.33333333e-`. Erasing from that
number leaves a text of the grammar, with as many digits as can be typed. -/
example :
    ((new { format := { decimals := 16 } }).run
      [.digit 1, .operator .divide, .digit 3, .digit 0, .digit 0, .digit 0, .digit 0, .digit 0,
        .digit 0, .digit 0, .equals, .operator .add, .backspace, .backspace]).buffer =
      "3.3333333".toList := by
  decide +kernel

end Calculator

end PocketCalc
