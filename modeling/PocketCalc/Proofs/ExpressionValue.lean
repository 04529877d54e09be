import PocketCalc.Calculator
import PocketCalc.Proofs.Conservation

/-!
# When an expression has a value

An evaluation completes the tokens, converts them, runs the machine and writes the
value. It can fail on the way for two kinds of reason, and the calculator tells them
apart:

* **nothing to calculate** — completion leaves no token (`evaluateTokens_of_nothing`),
  or a number cannot be read (`evaluateTokens_of_unreadable`);
* **a mathematical error** — the value is not finite. This is the only failure of an
  expression that can be read (`evaluateTokens_of_readable`).
-/

namespace PocketCalc

variable {α : Type}

/-- A check for finiteness fails with a mathematical error only. -/
theorem checkFinite_cases (A : Arithmetic α) (zeroDivisor : Bool) (v : α) :
    (A.isFinite v = true ∧ checkFinite A zeroDivisor v = .ok v) ∨
    ∃ e, checkFinite A zeroDivisor v = .error e ∧ e.isMathError = true := by
  unfold checkFinite
  split
  · next hfinite => exact .inl ⟨hfinite, rfl⟩
  · split
    · exact .inr ⟨_, rfl, rfl⟩
    · exact .inr ⟨_, rfl, rfl⟩

/-! ## Evaluations -/

variable (unit : AngleUnit) (f : NumberFormat) {ts us : List Token}

/-- A failure to find a value is a failure of the evaluation. -/
theorem evaluateTokens_of_valueOf_error {e : CalcError}
    (h : valueOf (.binary64 unit) ts = .error e) : evaluateTokens unit f ts = .error e := by
  simp [evaluateTokens, h, bind, Except.bind]

/-- A finite value is displayed. -/
theorem evaluateTokens_of_valueOf {x : Float} (h : valueOf (.binary64 unit) ts = .ok x)
    (hfinite : Decimal.isFinite x = true) :
    evaluateTokens unit f ts = .ok ⟨x, f.fit (f.round x)⟩ := by
  simp [evaluateTokens, h, NumberFormat.format, hfinite, bind, Except.bind, pure, Except.pure]

/-- A value that is displayed is finite. -/
theorem display_of_evaluateTokens {unit : AngleUnit} {f : NumberFormat} {r : Evaluation}
    (h : evaluateTokens unit f ts = .ok r) :
    Decimal.isFinite r.value = true ∧ r.display = f.fit (f.round r.value) := by
  cases hvalue : valueOf (.binary64 unit) ts with
  | error e =>
      rw [evaluateTokens_of_valueOf_error unit f hvalue] at h
      cases h
  | ok x =>
      by_cases hfinite : Decimal.isFinite x = true
      · rw [evaluateTokens_of_valueOf unit f hvalue hfinite] at h
        obtain rfl := Except.ok.inj h
        exact ⟨hfinite, rfl⟩
      · simp [evaluateTokens, hvalue, bind, Except.bind, NumberFormat.format, hfinite] at h

/-- Where completion leaves nothing there is nothing to evaluate. -/
theorem evaluateTokens_of_nothing {e : CalcError} (h : finalize ts = .error e) :
    evaluateTokens unit f ts = .error e :=
  evaluateTokens_of_valueOf_error unit f (by simp [valueOf, h, bind, Except.bind])

/-- A number that cannot be read is no mathematical error. -/
theorem evaluateTokens_of_unreadable (h : finalize ts = .ok us) {literal : List Char}
    (hl : .number literal ∈ us) (hread : Decimal.readFloat? literal = none) :
    ∃ e, evaluateTokens unit f ts = .error e ∧ e.isMathError = false := by
  obtain ⟨first, hitems⟩ := Postfix.exists_invalidLiteral (A := .binary64 unit) hread hl
  refine ⟨.malformedInput (.invalidLiteral first), evaluateTokens_of_valueOf_error unit f ?_, rfl⟩
  simp [valueOf, h, hitems, bind, Except.bind]

/-- **An expression that can be read has a value or a mathematical error.** -/
theorem evaluateTokens_of_readable (h : finalize ts = .ok us) (hus : Phrase .expression us)
    (hread : ∀ literal, .number literal ∈ us → (Decimal.readFloat? literal).isSome) :
    (∃ r, evaluateTokens unit f ts = .ok r) ∨
    ∃ e, evaluateTokens unit f ts = .error e ∧ e.isMathError = true := by
  obtain ⟨t, ht⟩ := hus.exists_reading (A := .binary64 unit) hread
  have hvalue : valueOf (.binary64 unit) ts =
      checkFinite (.binary64 unit) (t.dividesByZero (.binary64 unit))
        (t.eval (.binary64 unit)) := by
    simp [valueOf, h, ht.ofTokens, evaluate_postorder, bind, Except.bind]
  rcases checkFinite_cases (.binary64 unit) (t.dividesByZero (.binary64 unit))
    (t.eval (.binary64 unit)) with ⟨hfinite, hok⟩ | ⟨e, herror, hmath⟩
  · exact .inl ⟨_, evaluateTokens_of_valueOf unit f (hvalue.trans hok) hfinite⟩
  · exact .inr ⟨e, evaluateTokens_of_valueOf_error unit f (hvalue.trans herror), hmath⟩

namespace Calculator

/-- A result that is evaluated is all that stays entered. -/
theorem equals_of_ok {c : Calculator} {r : Evaluation}
    (h : evaluateTokens c.angleUnit c.settings.format c.expression = .ok r) :
    c.equals = (.evaluated r.display, { c with
      entered := [.number r.display], buffer := [], isResult := true, isError := false,
      preview := some (expressionText c.expression [] ++ [' ', '=']) }) := by
  simp [equals, h]

/-- A mathematical error is displayed, and nothing stays entered. -/
theorem equals_of_mathError {c : Calculator} {e : CalcError}
    (h : evaluateTokens c.angleUnit c.settings.format c.expression = .error e)
    (hmath : e.isMathError = true) :
    c.equals = (.evaluated errorText, { c with
      entered := [], buffer := [], isResult := true, isError := true,
      preview := some (expressionText c.expression [] ++ [' ', '=']) }) := by
  simp [equals, h, hmath]

/-- Where there is nothing to calculate the state stays as it is. -/
theorem equals_of_otherError {c : Calculator} {e : CalcError}
    (h : evaluateTokens c.angleUnit c.settings.format c.expression = .error e)
    (hmath : e.isMathError = false) : c.equals = (.ignored, c) := by
  simp [equals, h, hmath]

/-- What the equals key reports, by how the evaluation ends. -/
theorem equals_outcome (c : Calculator) :
    c.equals.1 = match evaluateTokens c.angleUnit c.settings.format c.expression with
      | .ok r => .evaluated r.display
      | .error e => if e.isMathError then .evaluated errorText else .ignored := by
  cases hresult : evaluateTokens c.angleUnit c.settings.format c.expression with
  | ok r => simp [equals, hresult]
  | error e =>
      by_cases hmath : e.isMathError = true
      · simp [equals, hresult, hmath]
      · simp [equals, hresult, hmath]

end Calculator

end PocketCalc
