import PocketCalc.Proofs.EventEffects

/-!
# What the display shows after an evaluation

A state is in entry, shows a result, or shows an error (`Showing`). A result and an error
stay as they are, with their flags, tokens and preview, until an edit takes them off: keys
that are ignored or refused and the key for the unit of angles leave them alone. So the
text on the display is that of the latest evaluation, however long ago it was.

* `latestEvaluation?` — the text that the latest evaluation of a run reported.
* `Showing.step`, `Showing.run` — an event and a run keep what is shown in step with it.
* `shown_after_evaluation` — **what is shown in every reachable state.**
-/

namespace PocketCalc

/-! ## The latest evaluation -/

/-- The text of an evaluation. -/
def Outcome.evaluation? : Outcome → Option (List Char)
  | .evaluated text => some text
  | _ => none

/-- The text that the latest evaluation among the steps of a run reported. -/
def latestEvaluation? (steps : List (Event × Outcome × Calculator)) : Option (List Char) :=
  steps.reverse.findSome? fun step => step.2.1.evaluation?

theorem latestEvaluation?_cons (step : Event × Outcome × Calculator)
    (steps : List (Event × Outcome × Calculator)) :
    latestEvaluation? (step :: steps) =
      (latestEvaluation? steps).or step.2.1.evaluation? := by
  simp [latestEvaluation?, List.findSome?_append]

namespace Calculator

/-! ## What a state shows -/

/-- A result is shown. -/
structure ShowsResult (c : Calculator) (text : List Char) : Prop where
  isResult : c.isResult = true
  isError : c.isError = false
  entered : c.entered = [.number text]
  buffer : c.buffer = []
  preview : c.preview.isSome = true
  width : text = [] → c.settings.format.width = 0

/-- An error is shown. -/
structure ShowsError (c : Calculator) : Prop where
  isResult : c.isResult = true
  isError : c.isError = true
  entered : c.entered = []
  buffer : c.buffer = []
  preview : c.preview.isSome = true

/-- What a state shows if `last` is the text of the latest evaluation. -/
inductive Showing (last : Option (List Char)) (c : Calculator) : Prop
  | entry : c.isResult = false → c.isError = false → Showing last c
  | result {text} : c.ShowsResult text → last = some text → Showing last c
  | error : c.ShowsError → last = some errorText → Showing last c

variable {c : Calculator} {last : Option (List Char)}

/-- **Every effect keeps what is shown in step with the latest evaluation.** -/
theorem Showing.step {c' : Calculator} {e : Event} {o : Outcome} (h : Showing last c)
    (heffect : Effect c e o c') : Showing (o.evaluation?.or last) c' := by
  cases heffect with
  | ignore => exact h
  | reject _ _ => exact h
  | edit _ =>
      refine .entry rfl ?_
      -- an error is never shown without the flag of a result
      cases h with
      | entry _ herror => simp [herror]
      | result h _ => simp [h.isError]
      | error h _ => simp [h.isResult]
  | clear => exact .entry rfl rfl
  | @result r preview hr =>
      have hwidth : r.display = [] → c.settings.format.width = 0 := by
        intro hnil
        rw [(display_of_evaluateTokens hr).2] at hnil
        exact NumberFormat.width_of_fit_eq_nil hnil
      exact .result ⟨rfl, rfl, rfl, rfl, rfl, hwidth⟩ rfl
  | error => exact .error ⟨rfl, rfl, rfl, rfl, rfl⟩ rfl
  | toggle =>
      cases h with
      | entry hresult herror => exact .entry hresult herror
      | result h hlast =>
          exact .result ⟨h.isResult, h.isError, h.entered, h.buffer, h.preview, h.width⟩ hlast
      | error h hlast =>
          exact .error ⟨h.isResult, h.isError, h.entered, h.buffer, h.preview⟩ hlast

/-- **What a run leaves on the display.** -/
theorem Showing.run (h : Showing last c) (events : List Event) :
    Showing ((latestEvaluation? (c.trace events)).or last) (c.run events) := by
  induction events generalizing c last with
  | nil => exact h
  | cons e events ih =>
      have hrest := ih (h.step (c.apply_effect e))
      rw [trace, latestEvaluation?_cons, Option.or_assoc]
      exact hrest

theorem showing_run (settings : Settings) (events : List Event) :
    Showing (latestEvaluation? ((new settings).trace events)) ((new settings).run events) := by
  have hnew : Showing none (new settings) := .entry rfl rfl
  simpa using hnew.run events

/-! ## The main line -/

theorem ShowsError.line (h : c.ShowsError) : c.line = errorText := by
  simp [Calculator.line, display, Display.line, h.isError]

theorem ShowsResult.line {text : List Char} (h : c.ShowsResult text) :
    c.line = if text = [] then ['0'] else text := by
  simp [Calculator.line, display, Display.line, h.isError, tokens, h.entered, h.buffer,
    lineOf, DisplayToken.spaced, DisplayToken.ofToken, Token.kind, Token.text]

/-- **What is shown after an evaluation**, in every reachable state. Where the error flag is
set the flag of a result is set too, nothing is entered, and the display says `Error`, which
the latest evaluation reported. Where a result is shown without an error, nothing is entered
but the text of the latest evaluation, and the display shows it; a display without any width
shows `0` in place of no text. In both cases there is a preview. -/
theorem shown_after_evaluation (settings : Settings) (events : List Event) :
    let c := (new settings).run events
    (c.isError = true →
        c.isResult = true ∧ c.tokens = [] ∧ c.buffer = [] ∧ c.line = "Error".toList ∧
          latestEvaluation? ((new settings).trace events) = some "Error".toList) ∧
      (c.isResult = true → c.isError = false →
        c.buffer = [] ∧ ∃ text, latestEvaluation? ((new settings).trace events) = some text ∧
          c.tokens = [.number text] ∧ c.line = (if text = [] then ['0'] else text) ∧
          (text = [] → settings.format.width = 0)) ∧
      (c.isResult = true → ∃ preview, c.preview = some preview) := by
  intro c
  have hsettings : c.settings = settings := run_settings _ events
  have hshowing : Showing (latestEvaluation? ((new settings).trace events)) c :=
    showing_run settings events
  cases hshowing with
  | entry hresult herror => simp [hresult, herror]
  | @result text h hlast =>
      have hwidth := h.width
      rw [hsettings] at hwidth
      refine ⟨fun herror => ?_, fun _ _ => ⟨h.buffer, text, hlast, ?_, h.line, hwidth⟩,
        fun _ => Option.isSome_iff_exists.mp h.preview⟩
      · rw [h.isError] at herror
        cases herror
      · simp [tokens, h.entered]
  | error h hlast =>
      refine ⟨fun _ => ⟨h.isResult, ?_, h.buffer, h.line, hlast⟩, fun _ hnot => ?_,
        fun _ => Option.isSome_iff_exists.mp h.preview⟩
      · simp [tokens, h.entered]
      · rw [h.isError] at hnot
        cases hnot

end Calculator

end PocketCalc
