import PocketCalc.Printer
import PocketCalc.Proofs.EntryBuffer
import PocketCalc.Proofs.LineReading

/-!
# Colour adds nothing to a text

A text is painted by escape sequences around it. The coloured line is put together by its own
rules, part by part and with a style for each, while the plain line is joined first and checked
for being empty afterwards. Without the escape sequences the two are the same.

* `Style.withoutSequences` — a text without its escape sequences.
* `Style.Wraps` — what a painter has to do: sequences in front of the text, a reset behind.
* `Printer.withoutSequences_paint` — painting a text, whatever the style, adds sequences only.
* `Printer.coloured_text_is_plain` — **coloured and plain output show the same text.**
* `Calculator.Sound.drawable` — the displays of a calculator are among those it is about.
-/

namespace PocketCalc

/-! ## Escape sequences -/

namespace Style

/-- What follows an escape sequence at the beginning of a text: `ESC`, `[`, digits and `m`. -/
def afterSequence? : List Char → Option (List Char)
  | '\x1b' :: '[' :: text =>
    match text.takeWhile Char.isDigit, text.dropWhile Char.isDigit with
    | _ :: _, 'm' :: rest => some rest
    | _, _ => none
  | _ => none

theorem length_afterSequence?_lt {text rest : List Char} (h : afterSequence? text = some rest) :
    rest.length < text.length := by
  unfold afterSequence? at h
  split at h
  · next text =>
    split at h
    · next _ _ behind _ hdrop =>
      obtain rfl := Option.some.inj h
      have hle := (text.dropWhile_suffix Char.isDigit).length_le
      rw [hdrop, List.length_cons] at hle
      rw [List.length_cons, List.length_cons]
      omega
    · cases h
  · cases h

/-- A text without its escape sequences. -/
def withoutSequences : List Char → List Char
  | [] => []
  | ch :: text =>
    match _hafter : afterSequence? (ch :: text) with
    | some rest => withoutSequences rest
    | none => ch :: withoutSequences text
termination_by text => text.length
decreasing_by
  · exact length_afterSequence?_lt _hafter
  · exact Nat.lt_succ_self _

theorem withoutSequences_nil : withoutSequences [] = [] := by
  rw [withoutSequences]

/-- A sequence at the beginning goes. -/
theorem withoutSequences_of_some {text rest : List Char} (h : afterSequence? text = some rest) :
    withoutSequences text = withoutSequences rest := by
  cases text with
  | nil => cases h
  | cons ch text =>
      rw [withoutSequences]
      split
      · next hrest => rw [Option.some.inj (h.symm.trans hrest)]
      · next hnone => cases h.symm.trans hnone

/-- Any other character than `ESC` stays. -/
theorem withoutSequences_cons {ch : Char} (hch : ch ≠ '\x1b') (text : List Char) :
    withoutSequences (ch :: text) = ch :: withoutSequences text := by
  have hnone : afterSequence? (ch :: text) = none := by
    unfold afterSequence?
    split
    · next heq => exact absurd (List.cons.inj heq).1 hch
    · rfl
  rw [withoutSequences]
  split
  · next hsome => cases hnone.symm.trans hsome
  · rfl

/-- So does a text without that character. -/
theorem withoutSequences_append {text : List Char} (h : '\x1b' ∉ text) (rest : List Char) :
    withoutSequences (text ++ rest) = text ++ withoutSequences rest := by
  induction text with
  | nil => rfl
  | cons ch text ih =>
      have hch : ch ≠ '\x1b' := by
        rintro rfl
        exact h List.mem_cons_self
      have htext : '\x1b' ∉ text := fun hmem => h (List.mem_cons_of_mem _ hmem)
      rw [List.cons_append, withoutSequences_cons hch, ih htext, List.cons_append]

/-- The sequence of a code is an escape sequence. -/
theorem withoutSequences_sequence (code : Nat) (rest : List Char) :
    withoutSequences (sequence code ++ rest) = withoutSequences rest := by
  have hdigits : IsDigits (Decimal.natText code) :=
    ⟨spell_ne_nil (numeralOnto_ne_nil _ _ _), isDigit_of_mem_spell⟩
  obtain ⟨ch, digits, hcons, -⟩ := hdigits.head
  have hdigit : ∀ d ∈ ch :: digits, d.isDigit = true := hcons ▸ hdigits.2
  have htake : (ch :: digits ++ 'm' :: rest).takeWhile Char.isDigit = ch :: digits := by
    rw [List.takeWhile_append_of_pos hdigit]
    simp
  have hdrop : (ch :: digits ++ 'm' :: rest).dropWhile Char.isDigit = 'm' :: rest := by
    rw [List.dropWhile_append_of_pos hdigit]
    simp
  have hsplit : sequence code ++ rest = '\x1b' :: '[' :: (ch :: digits ++ 'm' :: rest) := by
    simp [sequence, hcons]
  apply withoutSequences_of_some
  simp only [hsplit, afterSequence?, htake, hdrop]

theorem withoutSequences_sequences (codes : List Nat) (rest : List Char) :
    withoutSequences (codes.flatMap sequence ++ rest) = withoutSequences rest := by
  induction codes with
  | nil => rfl
  | cons code codes ih =>
      rw [List.flatMap_cons, List.append_assoc, withoutSequences_sequence, ih]

/-- A painter wraps a text if it leaves it as it is, or puts the sequences of some codes in front
of it and a reset behind. -/
def Wraps (painter : Style → List Char → List Char) : Prop :=
  ∀ style text, painter style text = text ∨
    ∃ codes : List Nat, painter style text = codes.flatMap sequence ++ text ++ sequence 0

theorem wraps_paint : Wraps paint := by
  intro style text
  unfold paint
  split
  · exact .inl rfl
  · exact .inr ⟨style.codes, rfl⟩

/-- **A painter that wraps adds escape sequences only.** -/
theorem withoutSequences_of_wraps {painter : Style → List Char → List Char}
    (hpainter : Wraps painter) (style : Style) {text : List Char} (h : '\x1b' ∉ text)
    (rest : List Char) :
    withoutSequences (painter style text ++ rest) = text ++ withoutSequences rest := by
  rcases hpainter style text with hsame | ⟨codes, hpainted⟩
  · rw [hsame, withoutSequences_append h]
  · rw [hpainted, List.append_assoc, List.append_assoc, withoutSequences_sequences,
      withoutSequences_append h, withoutSequences_sequence]

end Style

/-! ## Displays -/

/-- No token is empty, and no text holds the character that escape sequences begin with. -/
structure Display.Drawable (d : Display) : Prop where
  nonempty : ∀ t ∈ d.tokens, t.text ≠ []
  tokens : ∀ t ∈ d.tokens, '\x1b' ∉ t.text
  pending : '\x1b' ∉ d.pending

theorem DisplayToken.not_mem_spaced {t : DisplayToken} {ch : Char} (hspace : ch ≠ ' ')
    (h : ch ∉ t.text) : ch ∉ t.spaced := by
  unfold spaced
  split
  · simpa [hspace] using h
  · exact h

theorem DisplayToken.spaced_ne_nil {t : DisplayToken} (h : t.text ≠ []) : t.spaced ≠ [] := by
  unfold spaced
  split
  · exact List.cons_ne_nil _ _
  · exact h

/-- Besides the texts of the tokens and the pending number the line has only the spaces around
operators, or a zero or the error text alone. -/
theorem Display.not_mem_line {d : Display} {ch : Char} (hown : ch ∉ ' ' :: '0' :: errorText)
    (htokens : ∀ t ∈ d.tokens, ch ∉ t.text) (hpending : ch ∉ d.pending) : ch ∉ d.line := by
  obtain ⟨hspace, hzero, herror⟩ : ch ≠ ' ' ∧ ch ≠ '0' ∧ ch ∉ errorText := by simpa using hown
  have hjoined : ch ∉ lineOf d.tokens d.pending := by
    intro hmem
    rcases List.mem_append.mp hmem with htoken | hnumber
    · obtain ⟨t, ht, hspaced⟩ := List.mem_flatMap.mp htoken
      exact DisplayToken.not_mem_spaced hspace (htokens t ht) hspaced
    · exact hpending hnumber
  unfold line
  split
  · exact herror
  · simp only
    split
    · simpa using hzero
    · exact hjoined

namespace Display.Drawable

variable {d : Display}

theorem not_mem_line (h : d.Drawable) : '\x1b' ∉ d.line :=
  Display.not_mem_line (by decide) h.tokens h.pending

/-- The joined line is empty only where nothing is entered, since no token is empty. -/
theorem isEmpty_lineOf (h : d.Drawable) :
    (lineOf d.tokens d.pending).isEmpty = (d.tokens.isEmpty && d.pending.isEmpty) := by
  unfold lineOf
  cases htokens : d.tokens with
  | nil => rfl
  | cons t ts =>
      have hspaced := DisplayToken.spaced_ne_nil (h.nonempty t (by simp [htokens]))
      simp [hspaced]

end Display.Drawable

namespace Printer

open Style (withoutSequences Wraps)

section

variable {p : Printer} (hp : Wraps p.painter)
include hp

/-- With or without colour, painted text is the text. -/
theorem withoutSequences_paint (style : Style) {text : List Char} (h : '\x1b' ∉ text)
    (rest : List Char) :
    withoutSequences (p.paint text style ++ rest) = text ++ withoutSequences rest := by
  unfold paint
  split
  · exact Style.withoutSequences_of_wraps hp style h rest
  · exact Style.withoutSequences_append h rest

/-- A painted line of one style. -/
theorem withoutSequences_paint_self (style : Style) {text : List Char} (h : '\x1b' ∉ text) :
    withoutSequences (p.paint text style) = text := by
  have hpaint := withoutSequences_paint hp style h []
  rwa [List.append_nil, Style.withoutSequences_nil, List.append_nil] at hpaint

/-- Tokens painted one by one. -/
theorem withoutSequences_tokens {ts : List DisplayToken} (h : ∀ t ∈ ts, '\x1b' ∉ t.text)
    (rest : List Char) :
    withoutSequences ((ts.flatMap fun t => p.paint t.spaced t.kind.style) ++ rest) =
      ts.flatMap DisplayToken.spaced ++ withoutSequences rest := by
  induction ts with
  | nil => rfl
  | cons t ts ih =>
      obtain ⟨ht, hts⟩ := List.forall_mem_cons.mp h
      rw [List.flatMap_cons, List.append_assoc,
        withoutSequences_paint hp _ (DisplayToken.not_mem_spaced (by decide) ht), ih hts,
        List.flatMap_cons, List.append_assoc]

/-- **The styled line is the plain line**: the cases are those of `styledLine`. -/
theorem withoutSequences_styledLine {d : Display} (h : d.Drawable) :
    withoutSequences (p.styledLine d) = d.line := by
  unfold styledLine
  split
  · next herror =>
    rw [withoutSequences_paint_self hp _ (by decide), Display.line, if_pos herror]
  · next herror =>
    split
    · exact withoutSequences_paint_self hp _ h.not_mem_line
    · split
      · next hempty =>
        rw [withoutSequences_paint_self hp _ (by decide), Display.line, if_neg herror]
        simp only [h.isEmpty_lineOf, hempty, if_true]
      · next hfilled =>
        rw [withoutSequences_tokens hp h.tokens, withoutSequences_paint_self hp _ h.pending,
          Display.line, if_neg herror]
        simp only [h.isEmpty_lineOf, hfilled, Bool.false_eq_true, if_false]
        rfl

end

/-- **Coloured and plain output show the same text**, for every display whose tokens are not empty
and whose texts hold no `ESC`, and every painter that wraps. -/
theorem coloured_text_is_plain (p : Printer) (hpainter : Wraps p.painter) {d : Display}
    (h : d.Drawable) :
    withoutSequences (render { p with useColor := true, json := false } d) =
      render { p with useColor := false, json := false } d := by
  have hcoloured : Wraps { p with useColor := true, json := false : Printer }.painter := hpainter
  exact withoutSequences_styledLine hcoloured h

end Printer

/-! ## Displays of a calculator -/

/-- Only the text of a number can be empty. -/
theorem Token.text_ne_nil_of_fixed : ∀ t ∈ Token.fixed, t.text ≠ [] := by
  decide

/-- A character that no number has and no other token is not on the display. -/
theorem Calculator.Sound.not_mem_display {c : Calculator} (h : Sound c) {ch : Char}
    (hnumber : isNumberChar ch = false) (hfixed : ∀ t ∈ Token.fixed, ch ∉ t.text) :
    (∀ t ∈ c.display.tokens, ch ∉ t.text) ∧ ch ∉ c.display.pending := by
  have hwritten : ∀ {text : List Char} {s : Stage}, stage? text = some s → ch ∉ text := by
    intro text s hs hmem
    rw [Stage.isNumberChar_of_after? hs ch hmem] at hnumber
    cases hnumber
  constructor
  · intro t ht
    obtain ⟨token, htoken, rfl⟩ := List.mem_map.mp ht
    rcases token.number_or_fixed with ⟨literal, rfl⟩ | hmem
    · obtain ⟨s, hs, -⟩ := h.written.exists_stage literal (List.mem_reverse.mp htoken)
      exact hwritten hs
    · exact hfixed token hmem
  · rcases h.editable with hnil | ⟨s, hs, -⟩
    · show ch ∉ c.buffer
      rw [hnil]
      exact List.not_mem_nil
    · exact hwritten hs

/-- Every display of a calculator is drawn in the same way, unless it has cut a result to no
character at all. -/
theorem Calculator.Sound.drawable {c : Calculator} (h : Sound c) (hne : .number [] ∉ c.tokens) :
    c.display.Drawable where
  nonempty := by
    intro t ht
    obtain ⟨token, htoken, rfl⟩ := List.mem_map.mp ht
    rcases token.number_or_fixed with ⟨literal, rfl⟩ | hfixed
    · rintro rfl
      exact hne htoken
    · exact Token.text_ne_nil_of_fixed token hfixed
  tokens := (h.not_mem_display rfl (by decide)).1
  pending := (h.not_mem_display rfl (by decide)).2

/-- It applies to the usual printer, with every display, and to `sin(6 ÷ 0`, a part of which is
drawn as a warning. -/
theorem Printer.coloured_text_of_warning :
    let d := ((Calculator.new {}).run
      [.function .sin, .digit 6, .operator .divide, .digit 0]).display
    Style.Wraps (new true false).painter ∧
      (∀ d' : Display, d'.Drawable →
        Style.withoutSequences (render (new true false) d') = render (new false false) d') ∧
      d.Drawable ∧ d.divisionWarning = true ∧
      render (new true false) d = ("\x1b[35msin\x1b[0m\x1b[2m(\x1b[0m6" ++
        "\x1b[36m ÷ \x1b[0m\x1b[33m\x1b[4m0\x1b[0m").toList ∧
      render (new false false) d = "sin(6 ÷ 0".toList ∧
      Style.withoutSequences (render (new true false) d) = render (new false false) d := by
  intro d
  have hpainter : Style.Wraps (new true false).painter := Style.wraps_paint
  have hevery (d' : Display) (h : d'.Drawable) :
      Style.withoutSequences (render (new true false) d') = render (new false false) d' :=
    coloured_text_is_plain (new true false) hpainter h
  have hsound := Calculator.sound_run {} [.function .sin, .digit 6, .operator .divide, .digit 0]
  have hd : d.Drawable := hsound.drawable (by decide +kernel)
  exact ⟨hpainter, hevery, hd, by decide +kernel, by decide +kernel, by decide +kernel, hevery d hd⟩

end PocketCalc
