import Mathlib.Data.List.DropRight
import PocketCalc.Decimal.Literal
import PocketCalc.Entry

/-!
# How far a number has been written

A number text is an optional minus sign, digits, optionally a point with digits, and
optionally `e` with a sign and digits. `stage? text` says where such a text stands
after its last character, and is `none` where the text begins no number. As it is read
off character by character, every beginning of a text has a stage if the whole has.

The stages fall into three groups:

* **drafts** — the text spells a number, possibly with a point at its end. These are
  what an entry buffer may hold.
* **complete** — a draft without a point at its end. These are what an entered number
  token holds.
* **stumps** — nothing, a sign alone, or an exponent without digits. No number reads
  like that (`isSome_readFloat?`), and repairing takes an exponent mark off again
  (`repair_stage`).
-/

namespace PocketCalc

/-! ## Stages -/

/-- The part of a number that was written last. -/
inductive Stage where
  | start | sign | whole | point | fraction | mark | markSign | exponent
  deriving DecidableEq, Repr

namespace Stage

/-- The stage behind one more character. -/
def next? : Stage → Char → Option Stage
  | start, c => if c = '-' then some sign else if c.isDigit then some whole else none
  | sign, c => if c.isDigit then some whole else none
  | whole, c =>
      if c.isDigit then some whole else if c = '.' then some point
      else if c = 'e' then some mark else none
  | point, c => if c.isDigit then some fraction else none
  | fraction, c => if c.isDigit then some fraction else if c = 'e' then some mark else none
  | mark, c => if c = '+' ∨ c = '-' then some markSign else none
  | markSign, c => if c.isDigit then some exponent else none
  | exponent, c => if c.isDigit then some exponent else none

/-- The text spells a number, possibly with a point at its end. -/
def isDraft : Stage → Bool
  | whole | point | fraction | exponent => true
  | _ => false

/-- The text spells a number and ends on a digit. -/
def isComplete : Stage → Bool
  | whole | fraction | exponent => true
  | _ => false

/-- An exponent mark may follow. -/
def isMantissa : Stage → Bool
  | whole | fraction => true
  | _ => false

theorem isDraft_of_isComplete {s : Stage} (h : s.isComplete = true) : s.isDraft = true := by
  cases s <;> first | rfl | cases h

/-- A draft that does not end on a point is complete. -/
theorem isDraft_eq_isComplete {s : Stage} (h : s ≠ point) : s.isDraft = s.isComplete := by
  cases s <;> first | rfl | exact absurd rfl h

/-- What one more character can do: a digit leaves a complete number, and each of the
other characters has its place. -/
theorem next?_cases {s s' : Stage} {c : Char} (h : s.next? c = some s') :
    (c.isDigit = true ∧ s'.isComplete = true) ∨
    (s = start ∧ c = '-' ∧ s' = sign) ∨
    (s = whole ∧ c = '.' ∧ s' = point) ∨
    (s.isMantissa = true ∧ c = 'e' ∧ s' = mark) ∨
    (s = mark ∧ (c = '+' ∨ c = '-') ∧ s' = markSign) := by
  cases s <;> simp only [next?] at h <;> grind [isComplete, isMantissa]

/-- The stage behind more text. -/
def after? (s : Stage) (text : List Char) : Option Stage :=
  text.foldlM next? s

@[simp] theorem after?_nil (s : Stage) : s.after? [] = some s := rfl

@[simp] theorem after?_cons (s : Stage) (c : Char) (text : List Char) :
    s.after? (c :: text) = (s.next? c).bind (·.after? text) := rfl

theorem after?_append (s : Stage) (as bs : List Char) :
    s.after? (as ++ bs) = (s.after? as).bind (·.after? bs) := by
  rw [after?, List.foldlM_append]; rfl

end Stage

/-- The stage of a text. -/
def stage? (text : List Char) : Option Stage :=
  Stage.start.after? text

/-- The text spells a number, possibly with a point at its end. -/
def IsDraft (text : List Char) : Prop :=
  ∃ s, stage? text = some s ∧ s.isDraft = true

/-- The text spells a number and ends on a digit. -/
def IsComplete (text : List Char) : Prop :=
  ∃ s, stage? text = some s ∧ s.isComplete = true

theorem IsComplete.isDraft {text : List Char} (h : IsComplete text) : IsDraft text := by
  obtain ⟨s, hs, hcomplete⟩ := h
  exact ⟨s, hs, Stage.isDraft_of_isComplete hcomplete⟩

theorem stage?_concat (text : List Char) (c : Char) :
    stage? (text ++ [c]) = (stage? text).bind (·.next? c) := by
  rw [stage?, Stage.after?_append]
  cases hs : Stage.start.after? text with
  | none => simp [stage?, hs]
  | some s => simp [stage?, hs]

/-- A beginning of a text that has a stage has one too. -/
theorem stage?_of_prefix {text whole : List Char} (hp : text <+: whole) {s : Stage}
    (h : stage? whole = some s) : ∃ s', stage? text = some s' := by
  obtain ⟨rest, rfl⟩ := hp
  rw [stage?, Stage.after?_append] at h
  cases hs : Stage.start.after? text with
  | none => simp [hs] at h
  | some s' => exact ⟨s', hs⟩

/-! ## The end of a text, by its stage -/

/-- The characters at the end of a text in a stage. -/
inductive EndsAs : Stage → List Char → Prop
  | start : EndsAs .start []
  | sign : EndsAs .sign ['-']
  | digit {front c s} : c.isDigit = true → s.isComplete = true → EndsAs s (front ++ [c])
  | point {front} : stage? front = some .whole → EndsAs .point (front ++ ['.'])
  | mark {front s} : stage? front = some s → s.isMantissa = true →
      EndsAs .mark (front ++ ['e'])
  | markSign {front c s} : stage? front = some s → s.isMantissa = true → c = '+' ∨ c = '-' →
      EndsAs .markSign (front ++ ['e', c])

/-- The stage of a text is visible at its end. -/
theorem endsAs_of_stage? {text : List Char} {s : Stage} (h : stage? text = some s) :
    EndsAs s text := by
  induction text using List.reverseRecOn generalizing s with
  | nil =>
      obtain rfl : Stage.start = s := Option.some.inj h
      exact .start
  | append_singleton front c ih =>
      rw [stage?_concat] at h
      obtain ⟨s₀, hs₀, hnext⟩ := Option.bind_eq_some_iff.mp h
      rcases Stage.next?_cases hnext with ⟨hc, hs⟩ | ⟨rfl, rfl, rfl⟩ | ⟨rfl, rfl, rfl⟩ |
        ⟨hs, rfl, rfl⟩ | ⟨rfl, hc, rfl⟩
      · exact .digit hc hs
      · -- in front of a sign there is nothing
        cases ih hs₀ with
        | start => exact .sign
        | digit _ hcomplete => cases hcomplete
      · exact .point hs₀
      · exact .mark hs₀ hs
      · -- in front of the sign of an exponent there is its mark
        cases ih hs₀ with
        | digit _ hcomplete => cases hcomplete
        | mark hfront hmantissa => simpa using EndsAs.markSign hfront hmantissa hc

/-! ## Typing -/

/-- A digit behind a draft completes it. -/
theorem IsDraft.concat_digit {text : List Char} (h : IsDraft text) {c : Char}
    (hc : c.isDigit = true) : IsComplete (text ++ [c]) := by
  obtain ⟨s, hs, hdraft⟩ := h
  rw [IsComplete, stage?_concat, hs]
  cases s <;> simp_all [Stage.next?, Stage.isDraft, Stage.isComplete]

theorem isComplete_digit {c : Char} (hc : c.isDigit = true) : IsComplete [c] := by
  have hsign : c ≠ '-' := by
    rintro rfl
    cases hc
  exact ⟨.whole, by simp [stage?, Stage.next?, hc, hsign], rfl⟩

/-- Without a point and an exponent mark a text has not gone past the whole part. -/
theorem stage?_of_not_mem {text : List Char} {s : Stage} (h : stage? text = some s)
    (hpoint : '.' ∉ text) (hmark : 'e' ∉ text) : s = .start ∨ s = .sign ∨ s = .whole := by
  induction text using List.reverseRecOn generalizing s with
  | nil => exact .inl (Option.some.inj h).symm
  | append_singleton front c ih =>
      rw [stage?_concat] at h
      obtain ⟨s₀, hs₀, hnext⟩ := Option.bind_eq_some_iff.mp h
      simp only [List.mem_append, List.mem_singleton, not_or] at hpoint hmark
      have hfront := ih hs₀ hpoint.1 hmark.1
      rcases hfront with rfl | rfl | rfl <;> simp only [Stage.next?] at hnext <;> grind

/-- A point behind whole digits leaves a draft. -/
theorem IsDraft.concat_point {text : List Char} (h : IsDraft text) (hpoint : '.' ∉ text)
    (hmark : 'e' ∉ text) : IsDraft (text ++ ['.']) := by
  obtain ⟨s, hs, hdraft⟩ := h
  rcases stage?_of_not_mem hs hpoint hmark with rfl | rfl | rfl
  · cases hdraft
  · cases hdraft
  · exact ⟨.point, by rw [stage?_concat, hs]; rfl, rfl⟩

/-! ## Erasing -/

theorem dropLastAfter_of_getLast?_ne {tail text : List Char} (htail : tail ≠ [])
    (h : tail.getLast? ≠ text.getLast?) : dropLastAfter tail text = text := by
  unfold dropLastAfter
  rw [if_neg]
  intro hsuffix
  obtain ⟨front, rfl⟩ := List.isSuffixOf_iff_suffix.mp hsuffix
  exact h (List.getLast?_append_of_ne_nil front htail).symm

theorem dropLastAfter_append (front : List Char) {tail : List Char} (htail : tail ≠ []) :
    dropLastAfter tail (front ++ tail) = front ++ tail.dropLast := by
  unfold dropLastAfter
  rw [if_pos (List.isSuffixOf_iff_suffix.mpr (List.suffix_append front tail)),
    List.dropLast_append_of_ne_nil htail]

/-- Repairing leaves a text alone that ends on neither a sign nor a mark. -/
theorem repair_of_getLast? {text : List Char} {c : Char} (h : text.getLast? = some c)
    (hc : c ≠ '+' ∧ c ≠ '-' ∧ c ≠ 'e') : repair text = text := by
  have hplus : dropLastAfter ['e', '+'] text = text :=
    dropLastAfter_of_getLast?_ne (by simp) (by simp [h, hc.1.symm])
  have hminus : dropLastAfter ['e', '-'] text = text :=
    dropLastAfter_of_getLast?_ne (by simp) (by simp [h, hc.2.1.symm])
  have hmark : dropLastAfter ['e'] text = text :=
    dropLastAfter_of_getLast?_ne (by simp) (by simp [h, hc.2.2.symm])
  simp only [repair, hplus, hminus, hmark]
  rw [if_neg]
  rintro rfl
  exact hc.2.1 (Option.some.inj h).symm

theorem ne_of_isDigit {c : Char} (h : c.isDigit = true) :
    c ≠ '+' ∧ c ≠ '-' ∧ c ≠ 'e' ∧ c ≠ '.' := by
  refine ⟨?_, ?_, ?_, ?_⟩ <;> (rintro rfl; cases h)

/-- The text in front of an exponent mark ends on a digit. -/
theorem getLast?_of_isMantissa {text : List Char} {s : Stage} (h : stage? text = some s)
    (hs : s.isMantissa = true) : ∃ c, text.getLast? = some c ∧ c.isDigit = true := by
  cases endsAs_of_stage? h with
  | digit hc _ => exact ⟨_, by simp, hc⟩
  | _ => cases hs

theorem Stage.isComplete_of_isMantissa {s : Stage} (h : s.isMantissa = true) :
    s.isComplete = true := by
  cases s <;> first | rfl | cases h

theorem Stage.isDraft_of_isMantissa {s : Stage} (h : s.isMantissa = true) :
    s.isDraft = true :=
  isDraft_of_isComplete (isComplete_of_isMantissa h)

theorem IsDraft.repair_eq {text : List Char} (h : IsDraft text) : repair text = text := by
  obtain ⟨s, hs, hdraft⟩ := h
  cases endsAs_of_stage? hs with
  | digit hc _ =>
      have hne := ne_of_isDigit hc
      exact repair_of_getLast? (by simp) ⟨hne.1, hne.2.1, hne.2.2.1⟩
  | point _ => exact repair_of_getLast? (c := '.') (by simp) (by decide)
  | _ => cases hdraft

/-- Repairing takes an exponent mark off, alone or with its sign. -/
theorem repair_mark {front : List Char} (h : ∃ c, front.getLast? = some c ∧ c.isDigit = true)
    {tail : List Char} (htail : tail = ['e'] ∨ tail = ['e', '+'] ∨ tail = ['e', '-']) :
    repair (front ++ tail) = front := by
  obtain ⟨c, hlast, hc⟩ := h
  have hfront : front ≠ ['-'] := by
    rintro rfl
    exact (ne_of_isDigit hc).2.1 (Option.some.inj hlast).symm
  have hmark : dropLastAfter ['e'] (front ++ ['e']) = front := by
    have hdrop := dropLastAfter_append front (List.cons_ne_nil 'e' [])
    rwa [List.dropLast_singleton, List.append_nil] at hdrop
  have hminus : dropLastAfter ['e', '-'] (front ++ ['e']) = front ++ ['e'] :=
    dropLastAfter_of_getLast?_ne (by simp) (by simp)
  have hplus : ∀ {back}, (['e', '+'].getLast? ≠ (front ++ back).getLast?) →
      dropLastAfter ['e', '+'] (front ++ back) = front ++ back :=
    dropLastAfter_of_getLast?_ne (by simp)
  -- the passes are made one after the other, and each tail is met by its own
  have hunmarked : dropLastAfter ['e'] (dropLastAfter ['e', '-']
      (dropLastAfter ['e', '+'] (front ++ tail))) = front := by
    rcases htail with rfl | rfl | rfl
    · rw [hplus (by simp), hminus, hmark]
    · rw [dropLastAfter_append front (by simp)]
      show dropLastAfter ['e'] (dropLastAfter ['e', '-'] (front ++ ['e'])) = front
      rw [hminus, hmark]
    · rw [hplus (by simp), dropLastAfter_append front (by simp)]
      show dropLastAfter ['e'] (front ++ ['e']) = front
      exact hmark
  simp only [repair, hunmarked]
  rw [if_neg hfront]

/-- What an entry buffer may hold: nothing, or a draft. -/
def IsEditable (text : List Char) : Prop :=
  text = [] ∨ IsDraft text

/-- **Repairing leaves nothing or a draft**, whatever stage the text has reached. -/
theorem repair_stage {text : List Char} {s : Stage} (h : stage? text = some s) :
    IsEditable (repair text) := by
  cases hdraft : s.isDraft with
  | true =>
      have htext : IsDraft text := ⟨s, h, hdraft⟩
      rw [htext.repair_eq]
      exact .inr htext
  | false =>
      cases endsAs_of_stage? h with
      | start => exact .inl rfl
      | sign => exact .inl rfl
      | digit _ hcomplete => rw [Stage.isDraft_of_isComplete hcomplete] at hdraft; cases hdraft
      | point _ => cases hdraft
      | mark hs hm =>
          rw [repair_mark (getLast?_of_isMantissa hs hm) (.inl rfl)]
          exact .inr ⟨_, hs, Stage.isDraft_of_isMantissa hm⟩
      | @markSign front c s hs hm hc =>
          have htail : ['e', c] = ['e', '+'] ∨ ['e', c] = ['e', '-'] := by
            rcases hc with rfl | rfl <;> simp
          rw [repair_mark (getLast?_of_isMantissa hs hm) (.inr htail)]
          exact .inr ⟨_, hs, Stage.isDraft_of_isMantissa hm⟩

theorem erase_stage {text : List Char} {s : Stage} (h : stage? text = some s) :
    IsEditable (erase text) := by
  obtain ⟨s', hs'⟩ := stage?_of_prefix (List.dropLast_prefix text) h
  exact repair_stage hs'

theorem IsEditable.exists_stage {text : List Char} (h : IsEditable text) :
    ∃ s, stage? text = some s := by
  rcases h with rfl | ⟨s, hs, _⟩
  · exact ⟨.start, rfl⟩
  · exact ⟨s, hs⟩

/-- Cutting to a digit limit keeps a text editable. -/
theorem IsEditable.cutToLimit (limit : Nat) {text : List Char} (h : IsEditable text) :
    IsEditable (cutToLimit limit text) := by
  fun_induction PocketCalc.cutToLimit limit text with
  | case1 text _ ih =>
      obtain ⟨s, hs⟩ := h.exists_stage
      exact ih (erase_stage hs)
  | case2 text _ => exact h

/-! ## Committing -/

theorem dropFinalPoints_eq (text : List Char) :
    Decimal.dropFinalPoints text = text.rdropWhile (· == '.') := rfl

/-- Only points at the end are dropped. -/
theorem dropFinalPoints_of_getLast?_ne {text : List Char} (h : text.getLast? ≠ some '.') :
    Decimal.dropFinalPoints text = text := by
  rw [dropFinalPoints_eq, List.rdropWhile_eq_self_iff]
  intro hne hpoint
  rw [List.getLast?_eq_some_getLast hne] at h
  exact h (congrArg some (by simpa using hpoint))

theorem dropFinalPoints_of_digit {text : List Char}
    (h : ∃ c, text.getLast? = some c ∧ c.isDigit = true) :
    Decimal.dropFinalPoints text = text := by
  obtain ⟨c, hlast, hc⟩ := h
  apply dropFinalPoints_of_getLast?_ne
  rw [hlast]
  exact fun heq => (ne_of_isDigit hc).2.2.2 (Option.some.inj heq)

/-- Only in the stage behind a point a text ends on one. -/
theorem EndsAs.getLast?_ne {text : List Char} {s : Stage} (h : EndsAs s text)
    (hs : s ≠ .point) : text.getLast? ≠ some '.' := by
  cases h with
  | start => simp
  | sign => simp
  | digit hc _ => simpa using (ne_of_isDigit hc).2.2.2
  | point _ => exact absurd rfl hs
  | mark _ _ => simp
  | markSign _ _ hc => rcases hc with rfl | rfl <;> simp

theorem IsComplete.getLast? {text : List Char} (h : IsComplete text) :
    ∃ c, text.getLast? = some c ∧ c.isDigit = true := by
  obtain ⟨s, hs, hcomplete⟩ := h
  cases endsAs_of_stage? hs with
  | digit hc _ => exact ⟨_, by simp, hc⟩
  | _ => cases hcomplete

/-- A complete number is committed as it is. -/
theorem IsComplete.pendingNumber?_eq {text : List Char} (h : IsComplete text) :
    pendingNumber? text = some (.number text) := by
  obtain ⟨c, hlast, hc⟩ := h.getLast?
  simp only [pendingNumber?, dropFinalPoints_of_digit h.getLast?]
  rw [if_neg]
  rintro (rfl | rfl)
  · cases hlast
  · exact (ne_of_isDigit hc).2.1 (Option.some.inj hlast).symm

/-- A point at the end is not committed. -/
theorem pendingNumber?_concat_point (text : List Char) :
    pendingNumber? (text ++ ['.']) = pendingNumber? text := by
  have hdrop : Decimal.dropFinalPoints (text ++ ['.']) = Decimal.dropFinalPoints text := by
    rw [dropFinalPoints_eq, List.rdropWhile_concat_pos _ _ _ rfl, dropFinalPoints_eq]
  simp only [pendingNumber?, hdrop]

/-- **A draft is committed as a complete number**, without a point at its end. -/
theorem IsDraft.pendingNumber? {text : List Char} (h : IsDraft text) :
    ∃ literal, PocketCalc.pendingNumber? text = some (.number literal) ∧ IsComplete literal := by
  obtain ⟨s, hs, hdraft⟩ := h
  cases endsAs_of_stage? hs with
  | @digit front c _ _ hcomplete =>
      have htext : IsComplete (front ++ [c]) := ⟨s, hs, hcomplete⟩
      exact ⟨front ++ [c], htext.pendingNumber?_eq, htext⟩
  | @point front hfront =>
      have hcomplete : IsComplete front := ⟨.whole, hfront, rfl⟩
      refine ⟨front, ?_, hcomplete⟩
      rw [pendingNumber?_concat_point, hcomplete.pendingNumber?_eq]
  | _ => cases hdraft

end PocketCalc
