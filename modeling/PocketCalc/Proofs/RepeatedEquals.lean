import PocketCalc.Proofs.ResultReading
import PocketCalc.Proofs.ResultState

/-!
# Equals pressed again

After a result all that is entered is its text. Equals then reads the text back and
writes it again, so that it is `NumberFormat.Repeats` that says what happens: the zeros
that filled up the text are gone, and everything else stays.

* `evaluateTokens_number` — the value of a single number.
* `equals_of_result` — equals on a result.
* `equals_again` — **what pressing equals again does.**
-/

namespace PocketCalc

open Decimal

/-- A number alone is its own value. -/
theorem evaluateTokens_number (unit : AngleUnit) (f : NumberFormat) {text : List Char} {x : Float}
    (hread : readFloat? text = some x) (hx : isFinite x = true) :
    evaluateTokens unit f [.number text] = .ok ⟨x, f.fit (f.round x)⟩ := by
  have hfinal : finalize [.number text] = .ok [.number text] := rfl
  have hliteral : (Arithmetic.binary64 unit).literal? text = some x := hread
  have hitems : Postfix.ofTokens (.binary64 unit) [.number text] = .ok [.value x] := by
    simp [Postfix.ofTokens, Postfix.convert, hliteral, Postfix.drain, Except.map]
  have hfinite : checkFinite (.binary64 unit) false x = .ok x := by
    rw [checkFinite, if_pos]
    exact hx
  refine evaluateTokens_of_valueOf unit f ?_ hx
  simp only [valueOf, hfinal, hitems, bind, Except.bind]
  exact hfinite

namespace Calculator

variable {c : Calculator}

/-- Equals on a result reads it back. -/
theorem equals_of_result {text : List Char} {x : Float} (hentered : c.entered = [.number text])
    (hbuffer : c.buffer = []) (hread : readFloat? text = some x) (hx : isFinite x = true) :
    c.equals = (.evaluated (c.settings.format.fit (c.settings.format.round x)),
      { c with
        entered := [.number (c.settings.format.fit (c.settings.format.round x))], buffer := [],
        isResult := true, isError := false, preview := some (text ++ [' ', '=']) }) := by
  have hexpression : c.expression = [.number text] := by
    rw [expression, tokens, hentered, hbuffer]
    rfl
  have hok := evaluateTokens_number c.angleUnit c.settings.format hread hx
  rw [← hexpression] at hok
  have hline : expressionText [.number text] [] = text := by
    simp [expressionText, lineOf, DisplayToken.spaced, DisplayToken.ofToken, Token.kind, Token.text]
  rw [equals_of_ok hok, hexpression, hline]

/-- A result without an error is the text of a finite value. -/
theorem exists_value_of_result {text : List Char} (hequals : c.equals.1 = .evaluated text)
    (hok : c.equals.2.isError = false) :
    ∃ x, isFinite x = true ∧ text = c.settings.format.fit (c.settings.format.round x) ∧
      c.equals.2.ShowsResult text := by
  cases hresult : evaluateTokens c.angleUnit c.settings.format c.expression with
  | ok r =>
    obtain ⟨hfinite, hdisplay⟩ := display_of_evaluateTokens hresult
    rw [equals_of_ok hresult] at hequals ⊢
    obtain rfl : r.display = text := by simpa using hequals
    refine ⟨r.value, hfinite, hdisplay, rfl, rfl, rfl, rfl, rfl, fun hnil => ?_⟩
    rw [hdisplay] at hnil
    exact NumberFormat.width_of_fit_eq_nil hnil
  | error e =>
    exfalso
    cases hmath : e.isMathError with
    | true =>
      rw [equals_of_mathError hresult hmath] at hok
      cases hok
    | false =>
      rw [equals_of_otherError hresult hmath] at hequals
      cases hequals

/-- On a display with some width the text of the result is the main line. -/
theorem ShowsResult.line_eq {text : List Char} (h : c.ShowsResult text)
    (hformat : c.settings.format = {}) : c.line = text := by
  rw [h.line, if_neg]
  intro hnil
  have hwidth := h.width hnil
  rw [hformat] at hwidth
  cases hwidth

/-- **Equals pressed again**, in every state with the default number format where equals
leads to a result and not to an error. The text of the result spells a finite number.
Unless this number is moved by rounding it once more, which can happen to numbers from
2251799 to 4503600 only, the second answer is the text of the first without the zeros that
filled it up: zeros at the end of a fraction, and those in front of an exponent if it is 21
or more. All that changes in the state is the text and the preview. -/
theorem equals_again (c : Calculator) (hformat : c.settings.format = {}) {text : List Char}
    (hequals : (c.apply .equals).1 = .evaluated text)
    (hok : (c.apply .equals).2.isError = false) :
    let shown := (c.apply .equals).2
    shown.tokens = [.number text] ∧ shown.buffer = [] ∧ shown.line = text ∧
      ∃ x, readFloat? text = some x ∧ isFinite x = true ∧
        (NumberFormat.unsteady x = false → c.settings.format.round x = x) ∧
        (c.settings.format.round x = x →
          shown.apply .equals = (.evaluated (unpadded x text),
            { shown with
              entered := [.number (unpadded x text)], preview := some (text ++ [' ', '=']) }) ∧
          (shown.apply .equals).2.line = unpadded x text) := by
  intro shown
  obtain ⟨v, hv, htext, hresult⟩ := exists_value_of_result hequals hok
  have hshows : shown.ShowsResult text := hresult
  have hsettings : shown.settings = c.settings := run_settings c [.equals]
  clear_value shown
  rw [← hsettings] at hformat htext ⊢
  refine ⟨?_, hshows.buffer, hshows.line_eq hformat, ?_⟩
  · rw [tokens, hshows.entered]
    rfl
  · obtain ⟨x, hread, hfinite, hsteady, hfit⟩ := NumberFormat.repeats_fit_round hformat hv
    rw [← htext] at hread hfit
    refine ⟨x, hread, hfinite, hsteady, fun hround => ?_⟩
    have hagain : shown.apply .equals = (.evaluated (unpadded x text),
        { shown with
          entered := [.number (unpadded x text)], preview := some (text ++ [' ', '=']) }) := by
      show shown.equals = _
      rw [equals_of_result hshows.entered hshows.buffer hread hfinite, hround, hfit, hshows.buffer,
        hshows.isResult, hshows.isError]
    refine ⟨hagain, ?_⟩
    rw [hagain]
    have hwidth : unpadded x text = [] → shown.settings.format.width = 0 := by
      rw [← hfit]
      exact NumberFormat.width_of_fit_eq_nil
    have hshows' : ShowsResult { shown with
        entered := [.number (unpadded x text)], preview := some (text ++ [' ', '=']) }
        (unpadded x text) :=
      ⟨hshows.isResult, hshows.isError, rfl, hshows.buffer, rfl, hwidth⟩
    exact hshows'.line_eq hformat

/-- After `10÷4` equals leads to `2.5` however often it is pressed. -/
theorem equals_again_of_quotient :
    ((((new {}).run [.digit 1, .digit 0, .operator .divide, .digit 4]).apply .equals).2.apply
      .equals).1 = .evaluated ['2', '.', '5'] := by
  obtain ⟨-, -, -, x, hread, -, hsteady, hagain⟩ :=
    @equals_again ((new {}).run [.digit 1, .digit 0, .operator .divide, .digit 4]) rfl
      ['2', '.', '5'] (by decide +kernel) (by decide +kernel)
  obtain rfl : (2.5 : Float) = x := by
    have hvalue : readFloat? ['2', '.', '5'] = some 2.5 := by decide +kernel
    exact Option.some.inj (hvalue.symm.trans hread)
  rw [(hagain (hsteady (by decide +kernel))).1]
  decide +kernel

/-- The text of a result is not kept in general. The zeros at the end of `100.00000000`, a
number that was cut, and of `1.00000e+22` are not written again; and rounding once more
moves `-4225233.679`. -/
theorem equals_changes_text :
    let twice (events : List Event) : Outcome × Bool × Outcome :=
      let first := ((new { mode := .basic }).run events).apply .equals
      (first.1, first.2.isError, (first.2.apply .equals).1)
    twice [.digit 1, .digit 0, .digit 0, .decimalPoint, .digit 0, .digit 0, .digit 0, .digit 0,
        .digit 0, .digit 0, .digit 0, .digit 0, .digit 1] =
      (.evaluated "100.00000000".toList, false, .evaluated "100".toList) ∧
    twice [.digit 1, .digit 0, .digit 0, .digit 0, .digit 0, .digit 0, .digit 0, .digit 0,
        .digit 0, .digit 0, .digit 0, .digit 1, .operator .multiply, .digit 1, .digit 0, .digit 0,
        .digit 0, .digit 0, .digit 0, .digit 0, .digit 0, .digit 0, .digit 0, .digit 0, .digit 1] =
      (.evaluated "1.00000e+22".toList, false, .evaluated "1e+22".toList) ∧
    twice [.operator .subtract, .digit 4, .digit 2, .digit 2, .digit 5, .digit 2, .digit 3,
        .digit 3, .decimalPoint, .digit 6, .digit 8] =
      (.evaluated "-4225233.679".toList, false, .evaluated "-4225233.678".toList) := by
  decide +kernel

end Calculator

end PocketCalc
