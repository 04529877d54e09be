import PocketCalc.Proofs.KeyScripts
import PocketCalc.Proofs.LineFeeds

/-!
# The loop presses the accepted lines

The loop takes the lines of an input as they come: it passes over blank ones, stops at `quit` or
`exit`, reports a line with an unknown word, and presses and answers every other one. Key scripts
are atomic, so a line that is reported leaves the session as it was. What is left is a fold over
the accepted lines, and the output is the list of the states behind them.

* `AcceptedLine` — a line whose words are all keys or literals.
* `Session.Presses` — lines that are pressed one after another, with the session behind each.
* `Session.repl_folds_accepted_lines` — **the loop presses the accepted lines and answers each
  with one line.**
-/

namespace PocketCalc

/-! ## Lines -/

instance : DecidablePred Accepted := fun word =>
  match h : wordEvents word with
  | .ok events => .isTrue ⟨events, h⟩
  | .error _ => .isFalse fun ⟨events, hevents⟩ => by simp [h] at hevents

/-- Every word of the line is a key or a literal. -/
def AcceptedLine (line : List Char) : Prop :=
  ∀ word ∈ lineWords line, Accepted word

instance (line : List Char) : Decidable (AcceptedLine line) :=
  inferInstanceAs (Decidable (∀ word ∈ lineWords line, Accepted word))

/-- A line that ends the loop is not blank. -/
theorem trim_ne_nil_of_endsRepl {line : List Char} (h : endsRepl line = true) :
    Text.trim line ≠ [] := by
  intro hnil
  rw [endsRepl, hnil] at h
  cases h

/-- The lines that hold a script, line by line: blank ones do not, and one that ends the loop
is the last to be looked at. -/
theorem scriptLines_cons (line : List Char) (rest : List (List Char)) :
    scriptLines (line :: rest) =
      if (Text.trim line).isEmpty then scriptLines rest
      else if endsRepl line then []
      else Text.trim line :: scriptLines rest := by
  cases hends : endsRepl line with
  | true =>
      have hne := trim_ne_nil_of_endsRepl hends
      simp [scriptLines, hends, hne]
  | false =>
      by_cases hblank : Text.trim line = []
      · simp [scriptLines, hends, hblank]
      · simp [scriptLines, hends, hblank]

/-- A line with an unknown word makes no difference to the accepted ones. -/
theorem accepted_without_refused (before : List (List Char)) {line : List Char}
    (behind : List (List Char)) (hrefused : ¬ AcceptedLine (Text.trim line))
    (hgoes : endsRepl line = false) :
    (scriptLines (before ++ line :: behind)).filter (AcceptedLine ·) =
      (scriptLines (before ++ behind)).filter (AcceptedLine ·) := by
  induction before with
  | nil =>
      rw [List.nil_append, List.nil_append, scriptLines_cons]
      split
      · rfl
      · simp [hgoes, hrefused]
  | cons first before ih =>
      rw [List.cons_append, List.cons_append, scriptLines_cons, scriptLines_cons]
      split
      · exact ih
      split
      · rfl
      · rw [List.filter_cons, List.filter_cons, ih]

namespace Session

/-! ## Pressed lines -/

/-- Lines that are pressed one after another, none of them with an unknown word, and the session
behind each. -/
inductive Presses : Session → List (List Char) → List Session → Prop
  | nil {s} : Presses s [] []
  | cons {s t : Session} {line lines steps after} : s.press (lineWords line) = (.ok steps, t) →
      Presses t lines after → Presses s (line :: lines) (t :: after)

variable {s : Session} {p : Printer}

/-- The lines determine the sessions behind them. -/
theorem Presses.unique {lines : List (List Char)} {after₁ after₂ : List Session}
    (h₁ : Presses s lines after₁) (h₂ : Presses s lines after₂) : after₁ = after₂ := by
  induction h₁ generalizing after₂ with
  | nil =>
      cases h₂
      rfl
  | cons hpress _ ih =>
      cases h₂ with
      | cons hpress₂ hrest₂ =>
          obtain ⟨-, rfl⟩ := Prod.mk.inj (hpress.symm.trans hpress₂)
          rw [ih hrest₂]

/-- Keys that are pressed are events that are applied, so what holds of a calculator in every
state holds in the states behind the lines. -/
theorem Presses.sound {lines : List (List Char)} {after : List Session}
    (h : Presses s lines after) (hs : s.calculator.Sound) :
    ∀ t ∈ after, t.calculator.Sound := by
  induction h with
  | nil => exact nofun
  | @cons s t line lines steps after hpress _ ih =>
      have ht : t.calculator.Sound := by
        rw [press] at hpress
        split at hpress
        · next events _ =>
          obtain ⟨-, rfl⟩ := Prod.mk.inj hpress
          exact hs.run events
        · cases hpress
      exact List.forall_mem_cons.mpr ⟨ht, ih ht⟩

/-! ## One line -/

/-- An accepted line is pressed and answered. -/
theorem replLine_of_accepted (s : Session) (p : Printer) {line : List Char}
    (h : AcceptedLine line) :
    ∃ steps t, s.press (lineWords line) = (.ok steps, t) ∧
      s.replLine p line = (⟨[p.render t.calculator.display], noticesOf p steps⟩, t) := by
  obtain ⟨parts, hparts⟩ := exists_reads h
  have hpress := s.press_of_reads hparts
  exact ⟨_, _, hpress, by rw [replLine, hpress]⟩

/-- A line with an unknown word is reported, and nothing else. -/
theorem replLine_of_refused (s : Session) (p : Printer) {line : List Char}
    (h : ¬ AcceptedLine line) : ∃ notice, s.replLine p line = (⟨[], [notice]⟩, s) := by
  rcases reads_or_unknown (lineWords line) with ⟨parts, hparts⟩ | hunknown
  · exact absurd hparts.accepted h
  · obtain ⟨front, word, rest, hwords, hfront, hword⟩ := hunknown
    have hpress : s.press (lineWords line) = (.error ⟨word⟩, s) := by
      rw [hwords, s.press_of_unknown hfront hword]
    exact ⟨_, by rw [replLine, hpress]⟩

/-! ## All lines -/

/-- **The loop is a fold.** The induction is on the lines: a line is passed over, ends the loop,
or is the next one of a script, which is pressed or reported. -/
theorem replFrom_folds (p : Printer) (lines : List (List Char)) (s : Session) :
    ∃ after, Presses s ((scriptLines lines).filter (AcceptedLine ·)) after ∧
      (s.replFrom p lines).2 = after.getLast?.getD s ∧
      (s.replFrom p lines).1.out = after.map fun t => p.render t.calculator.display := by
  induction lines generalizing s with
  | nil => exact ⟨[], .nil, rfl, rfl⟩
  | cons line rest ih =>
      rw [scriptLines_cons, replFrom]
      simp only
      split
      · exact ih s
      split
      · exact ⟨[], .nil, rfl, rfl⟩
      by_cases haccepted : AcceptedLine (Text.trim line)
      · obtain ⟨steps, t, hpress, hanswer⟩ := s.replLine_of_accepted p haccepted
        obtain ⟨after, hafter, hfinal, hout⟩ := ih t
        refine ⟨t :: after, ?_, ?_, ?_⟩
        · rw [List.filter_cons_of_pos (by simpa using haccepted)]
          exact .cons hpress hafter
        · rw [hanswer, List.getLast?_cons]
          exact hfinal
        · rw [hanswer]
          simp [Output.append, hout]
      · obtain ⟨notice, hanswer⟩ := s.replLine_of_refused p haccepted
        obtain ⟨after, hafter, hfinal, hout⟩ := ih s
        refine ⟨after, ?_, ?_, ?_⟩
        · rw [List.filter_cons_of_neg (by simpa using haccepted)]
          exact hafter
        · rw [hanswer]
          exact hfinal
        · rw [hanswer]
          simp [Output.append, hout]

/-- **The loop presses the accepted lines and answers each with one line.** The lines of a script
are those that are not blank and stand before the first `quit` or `exit`; they are trimmed. Those
without an unknown word can be pressed one after the other: the loop ends with the session behind
the last of them, and its output is the rendering of the session behind each. A line with an
unknown word changes neither the session nor the output: both are the same for an input without
it. In the text that is written, with a line feed behind each rendering, the lines are these
renderings and no others, if the printer puts no line feed into them; the usual one never does. -/
theorem repl_folds_accepted_lines (s : Session) (p : Printer) (input : List Char) :
    (∃ after, Presses s ((replLines input).filter (AcceptedLine ·)) after ∧
      (s.repl p input).2 = after.getLast?.getD s ∧
      (s.repl p input).1.out = after.map fun t => p.render t.calculator.display) ∧
    (∀ before line behind, Text.lines input = before ++ line :: behind →
      (∃ word ∈ lineWords (Text.trim line), ¬ Accepted word) → endsRepl line = false →
      ∀ without, Text.lines without = before ++ behind →
        (s.repl p without).2 = (s.repl p input).2 ∧
          (s.repl p without).1.out = (s.repl p input).1.out) ∧
    (∀ settings events, s.calculator = (Calculator.new settings).run events → p.OneLine →
      Text.lines (unlines (s.repl p input).1.out) = (s.repl p input).1.out) ∧
    ∀ useColor json, (Printer.new useColor json).OneLine := by
  have hfold (text : List Char) := replFrom_folds p (Text.lines text) s
  refine ⟨hfold input, ?_, ?_, Printer.oneLine_new⟩
  · intro before line behind hlines hunknown hgoes without hwithout
    have hrefused : ¬ AcceptedLine (Text.trim line) := by
      obtain ⟨word, hmem, hword⟩ := hunknown
      exact fun h => hword (h word hmem)
    obtain ⟨after, hafter, hfinal, hout⟩ := hfold input
    obtain ⟨after', hafter', hfinal', hout'⟩ := hfold without
    rw [hlines, accepted_without_refused before behind hrefused hgoes, ← hwithout] at hafter
    obtain rfl := hafter.unique hafter'
    exact ⟨hfinal'.trans hfinal.symm, hout'.trans hout.symm⟩
  · intro settings events hs hp
    obtain ⟨after, hafter, -, hout⟩ := hfold input
    have hsound : s.calculator.Sound := hs ▸ Calculator.sound_run settings events
    apply Text.lines_unlines
    intro answer hanswer
    rw [repl, hout] at hanswer
    obtain ⟨t, ht, rfl⟩ := List.mem_map.mp hanswer
    exact (hafter.sound hsound t ht).lineFeed_not_mem_render hp

/-- It applies to two calculations with a blank line and an unknown word between them, and a third
behind `quit`. -/
theorem repl_of_sum_and_product :
    let s := Session.new {}
    let p := Printer.new false false
    let input := "2 + 2 =\n\n 3 nope\n* 10 =\nquit\n9 =\n".toList
    let without := "2 + 2 =\n\n* 10 =\nquit\n9 =\n".toList
    (replLines input).filter (AcceptedLine ·) = ["2 + 2 =".toList, "* 10 =".toList] ∧
      (∃ after, Presses s ["2 + 2 =".toList, "* 10 =".toList] after ∧
        (s.repl p input).2 = after.getLast?.getD s) ∧
      (s.repl p input).1.out = ["4".toList, "40".toList] ∧
      ((s.repl p without).2 = (s.repl p input).2 ∧
        (s.repl p without).1.out = (s.repl p input).1.out) ∧
      p.OneLine ∧ Text.lines (unlines (s.repl p input).1.out) = (s.repl p input).1.out := by
  intro s p input without
  obtain ⟨⟨after, hafter, hfinal, -⟩, hwithout, hlines, husual⟩ :=
    repl_folds_accepted_lines s p input
  have hp : p.OneLine := husual false false
  have haccepted : (replLines input).filter (AcceptedLine ·) =
      ["2 + 2 =".toList, "* 10 =".toList] := by decide +kernel
  have hsplit : Text.lines input = ["2 + 2 =".toList, []] ++
      " 3 nope".toList :: ["* 10 =".toList, "quit".toList, "9 =".toList] := rfl
  have hunknown : ∃ word ∈ lineWords (Text.trim " 3 nope".toList), ¬ Accepted word :=
    ⟨"nope", by decide +kernel, by decide +kernel⟩
  have hgoes : endsRepl " 3 nope".toList = false := rfl
  have hrest : Text.lines without = ["2 + 2 =".toList, []] ++
      ["* 10 =".toList, "quit".toList, "9 =".toList] := rfl
  rw [haccepted] at hafter
  exact ⟨haccepted, ⟨after, hafter, hfinal⟩, by decide +kernel,
    hwithout _ _ _ hsplit hunknown hgoes without hrest, hp, hlines {} [] rfl hp⟩

end Session

end PocketCalc
