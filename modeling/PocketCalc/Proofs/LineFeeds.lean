import PocketCalc.CommandLine.Execution
import PocketCalc.Proofs.StyledText

/-!
# Every rendering is one line

The output is a text: renderings with a line feed behind each. It falls apart into the same
renderings again, because none of them has a line feed of its own. JSON escapes those that its
strings hold, escape sequences have other characters, and no token of a calculator holds one.

* `Json.lineFeed_not_mem_compact` — JSON has no line feed, whatever its strings are.
* `Printer.OneLine` — a printer whose painter and writer put no line feed in.
* `Calculator.Sound.lineFeed_not_mem_render` — nor has any rendering of a calculator.
* `Text.lines_unlines` — lines without a line feed are found again in the text made of them.
-/

namespace PocketCalc

/-! ## Numerals -/

theorem lineFeed_not_mem_natText (n : Nat) : '\n' ∉ Decimal.natText n := by
  intro hmem
  have hdigit := isDigit_of_mem_spell _ hmem
  cases hdigit

/-! ## JSON -/

namespace Json

theorem hexDigit_ne_lineFeed : ∀ n < 16, hexDigit n ≠ '\n' := by
  decide

/-- A line feed inside a string is written with a backslash. -/
theorem lineFeed_not_mem_escape (ch : Char) : '\n' ∉ escape ch := by
  unfold escape
  split_ifs with hquote hslash hfeed hreturn htab hback hform hcontrol
  any_goals decide
  · have hhigh : hexDigit (ch.toNat / 16) ≠ '\n' := hexDigit_ne_lineFeed _ (by omega)
    have hlow : hexDigit (ch.toNat % 16) ≠ '\n' := hexDigit_ne_lineFeed _ (by omega)
    simp [hhigh.symm, hlow.symm]
  · simpa using Ne.symm hfeed

theorem lineFeed_not_mem_quote (text : List Char) : '\n' ∉ quote text := by
  have hinside : '\n' ∉ text.flatMap escape := by
    intro hmem
    obtain ⟨ch, -, hescape⟩ := List.mem_flatMap.mp hmem
    exact lineFeed_not_mem_escape ch hescape
  simpa [quote] using hinside

mutual

/-- **JSON is one line.** -/
theorem lineFeed_not_mem_compact : ∀ v : Json, '\n' ∉ v.compact
  | null => by simp [compact]
  | bool b => by cases b <;> simp [compact]
  | nat n => by
      rw [compact]
      exact lineFeed_not_mem_natText n
  | str text => by
      rw [compact]
      exact lineFeed_not_mem_quote text
  | arr items => by
      have hitems := lineFeed_not_mem_compactItems items
      simpa [compact] using hitems
  | obj fields => by
      have hfields := lineFeed_not_mem_compactFields fields
      simpa [compact] using hfields

theorem lineFeed_not_mem_compactItems : ∀ items : List Json, '\n' ∉ compactItems items
  | [] => by
      rw [compactItems]
      exact List.not_mem_nil
  | [v] => by
      rw [compactItems]
      exact lineFeed_not_mem_compact v
  | v :: w :: items => by
      have hfirst := lineFeed_not_mem_compact v
      have hrest := lineFeed_not_mem_compactItems (w :: items)
      rw [compactItems]
      · simp [hfirst, hrest]
      · simp

theorem lineFeed_not_mem_compactFields :
    ∀ fields : List (String × Json), '\n' ∉ compactFields fields
  | [] => by
      rw [compactFields]
      exact List.not_mem_nil
  | [(name, v)] => by
      have hname := lineFeed_not_mem_quote name.toList
      have hvalue := lineFeed_not_mem_compact v
      rw [compactFields]
      simp [hname, hvalue]
  | (name, v) :: field :: fields => by
      have hname := lineFeed_not_mem_quote name.toList
      have hvalue := lineFeed_not_mem_compact v
      have hrest := lineFeed_not_mem_compactFields (field :: fields)
      rw [compactFields]
      · simp [hname, hvalue, hrest]
      · simp

end

end Json

/-! ## Styled text -/

theorem Style.lineFeed_not_mem_sequence (code : Nat) : '\n' ∉ sequence code := by
  simp [sequence, lineFeed_not_mem_natText]

/-- A painter that wraps keeps a text on its line. -/
theorem Style.lineFeed_not_mem_of_wraps {painter : Style → List Char → List Char}
    (hpainter : Wraps painter) (style : Style) (text : List Char) (h : '\n' ∉ text) :
    '\n' ∉ painter style text := by
  have hsequences (codes : List Nat) : '\n' ∉ codes.flatMap sequence := by
    intro hmem
    obtain ⟨code, -, hcode⟩ := List.mem_flatMap.mp hmem
    exact lineFeed_not_mem_sequence code hcode
  rcases hpainter style text with hsame | ⟨codes, hpainted⟩
  · rw [hsame]
    exact h
  · rw [hpainted]
    simp [h, hsequences, lineFeed_not_mem_sequence]

namespace Printer

/-- The painter keeps a text on its line, and the writer writes every value on one. -/
structure OneLine (p : Printer) : Prop where
  painter : ∀ style text, '\n' ∉ text → '\n' ∉ p.painter style text
  writer : ∀ v, '\n' ∉ p.writer v

theorem oneLine_new (useColor json : Bool) : (new useColor json).OneLine where
  painter := Style.lineFeed_not_mem_of_wraps Style.wraps_paint
  writer := Json.lineFeed_not_mem_compact

variable {p : Printer} (hp : p.OneLine)
include hp

theorem lineFeed_not_mem_paint (style : Style) {text : List Char} (h : '\n' ∉ text) :
    '\n' ∉ p.paint text style := by
  unfold paint
  split
  · exact hp.painter style text h
  · exact h

/-- **A rendering is one line** if the texts on the display are: the cases are those of `render`
and `styledLine`. -/
theorem lineFeed_not_mem_render {d : Display} (htokens : ∀ t ∈ d.tokens, '\n' ∉ t.text)
    (hpending : '\n' ∉ d.pending) : '\n' ∉ p.render d := by
  have hline : '\n' ∉ d.line := Display.not_mem_line (by decide) htokens hpending
  unfold render
  split
  · exact hp.writer d.toJson
  split
  · unfold styledLine
    split
    · exact lineFeed_not_mem_paint hp _ (by decide)
    split
    · exact lineFeed_not_mem_paint hp _ hline
    split
    · exact lineFeed_not_mem_paint hp _ (by decide)
    · intro hmem
      rcases List.mem_append.mp hmem with htoken | hnumber
      · obtain ⟨t, ht, hpainted⟩ := List.mem_flatMap.mp htoken
        have hspaced := DisplayToken.not_mem_spaced (by decide) (htokens t ht)
        exact lineFeed_not_mem_paint hp _ hspaced hpainted
      · exact lineFeed_not_mem_paint hp _ hpending hnumber
  · exact hline

end Printer

/-- What a calculator shows is rendered as one line. -/
theorem Calculator.Sound.lineFeed_not_mem_render {c : Calculator} (h : Sound c) {p : Printer}
    (hp : p.OneLine) : '\n' ∉ p.render c.display := by
  have hnumber : isNumberChar '\n' = false := rfl
  obtain ⟨htokens, hpending⟩ := h.not_mem_display hnumber (by decide)
  exact Printer.lineFeed_not_mem_render hp htokens hpending

/-! ## Lines put together -/

namespace Text

theorem linesFrom_append {line : List Char} (h : '\n' ∉ line) (begun rest : List Char) :
    linesFrom begun (line ++ rest) = linesFrom (line.reverse ++ begun) rest := by
  induction line generalizing begun with
  | nil => rfl
  | cons ch line ih =>
      have hch : ch ≠ '\n' := fun heq => h (heq ▸ List.mem_cons_self)
      have hline : '\n' ∉ line := fun hmem => h (List.mem_cons_of_mem ch hmem)
      simp [linesFrom, hch, ih hline]

/-- **Lines are found again** in the text that has a line feed behind each of them. -/
theorem lines_unlines {ls : List (List Char)} (h : ∀ line ∈ ls, '\n' ∉ line) :
    lines (unlines ls) = ls := by
  induction ls with
  | nil => rfl
  | cons line ls ih =>
      obtain ⟨hline, hls⟩ := List.forall_mem_cons.mp h
      have hrest := ih hls
      rw [lines, unlines] at hrest
      rw [lines, unlines, List.flatMap_cons, List.append_assoc, linesFrom_append hline]
      simp [linesFrom, hrest]

end Text

end PocketCalc
