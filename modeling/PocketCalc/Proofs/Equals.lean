import PocketCalc.Proofs.EntryOrder

/-!
# When equals is ignored

Equals is meant to be ignored only where there is nothing to evaluate. It is also
ignored where a number of the expression cannot be read, and that happens: a result that
does not fit the display is cut, a cut result need not be a number, and the calculator
goes on with its text.

* `Sound.unreadable` — of all numbers that the calculator writes, a cut result at the
  beginning of the expression is the only one that can fail to be a number.
* `equals_ignored_iff` — **exactly when equals is ignored.**
-/

namespace PocketCalc

namespace Calculator

variable {c : Calculator}

/-- There is nothing to evaluate: every token of the expression lacks a value behind
it. -/
def NothingToEvaluate (c : Calculator) : Prop :=
  ∀ t ∈ c.expression, t.isDangling = true

/-- The expression begins with the text of a result of which nothing but a stump was
left when it was cut to the width of the display. -/
def BeginsWithStump (c : Calculator) : Prop :=
  ∃ literal rest, c.expression = .number literal :: rest ∧ ¬ EndsOnDigit literal

/-- A number of the expression can be read exactly if it ends on a digit. -/
theorem Sound.readable_iff (h : Sound c) {literal : List Char}
    (hl : .number literal ∈ c.expression) :
    (Decimal.readFloat? literal).isSome = true ↔ EndsOnDigit literal := by
  rw [← commit_tokens] at hl
  obtain ⟨s, hs, hpoint⟩ := h.commit.written.exists_stage literal (List.mem_reverse.mp hl)
  exact isSome_readFloat?_iff_endsOnDigit hs hpoint

/-- **A number that cannot be read** is the first token of the expression, and it is what
was left of a result that did not fit the display. -/
theorem Sound.unreadable (h : Sound c) {literal : List Char}
    (hl : .number literal ∈ c.expression) (hend : ¬ EndsOnDigit literal) :
    (∃ rest, c.expression = .number literal :: rest) ∧
      ∃ x, Decimal.isFinite x = true ∧ c.settings.format.Cuts (c.settings.format.round x) ∧
        literal = Decimal.dropFinalPoints
          ((Decimal.Scientific.ofFloat (c.settings.format.round x)).standard.take
            c.settings.format.width) := by
  rw [← commit_tokens] at hl ⊢
  have hwritten := h.commit.written
  rw [commit_settings] at hwritten
  obtain ⟨⟨front, hfront⟩, x, hx, rfl⟩ :=
    hwritten.result_of_not_endsOnDigit literal (List.mem_reverse.mp hl) hend
  have hcuts : c.settings.format.Cuts (c.settings.format.round x) := by
    by_contra hnot
    exact hend (NumberFormat.isComplete_fit_of_not_cuts hnot).getLast?
  refine ⟨⟨front.reverse, ?_⟩, x, hx, hcuts, NumberFormat.fit_of_cuts hcuts⟩
  rw [tokens, hfront, List.reverse_append]
  rfl

/-- The expression begins with a stump if any number in it is one. -/
theorem Sound.beginsWithStump_iff (h : Sound c) :
    c.BeginsWithStump ↔ ∃ literal, .number literal ∈ c.expression ∧ ¬ EndsOnDigit literal := by
  constructor
  · rintro ⟨literal, rest, heq, hend⟩
    exact ⟨literal, by simp [heq], hend⟩
  · rintro ⟨literal, hl, hend⟩
    obtain ⟨⟨rest, heq⟩, _⟩ := h.unreadable hl hend
    exact ⟨literal, rest, heq, hend⟩

/-- What equals does in the three situations. -/
theorem Sound.equals_cases (h : Sound c) :
    (c.NothingToEvaluate ∧ c.equals.1 = .ignored) ∨
    (c.BeginsWithStump ∧ c.equals.1 = .ignored) ∨
    (¬ c.NothingToEvaluate ∧ ¬ c.BeginsWithStump ∧
      ∃ text, c.equals.1 = .evaluated text) := by
  have hequals := c.equals_outcome
  cases hus : finalize c.expression with
  | error e =>
      -- completion leaves nothing exactly where every token dangles
      obtain ⟨hdangling, rfl⟩ := finalize_eq_error_iff.mp hus
      refine .inl ⟨hdangling, ?_⟩
      rw [hequals, evaluateTokens_of_nothing _ _ hus]
      rfl
  | ok us =>
      have hnot : ¬ c.NothingToEvaluate := by
        intro hdangling
        rw [finalize_eq_error_iff.mpr ⟨hdangling, rfl⟩] at hus
        cases hus
      by_cases hstump : c.BeginsWithStump
      · -- completion keeps the stump, and conversion stops at it
        obtain ⟨literal, hl, hend⟩ := h.beginsWithStump_iff.mp hstump
        have hnone : Decimal.readFloat? literal = none := by
          rw [← Option.not_isSome_iff_eq_none, h.readable_iff hl]
          exact hend
        obtain ⟨e, he, hmath⟩ := evaluateTokens_of_unreadable c.angleUnit
          c.settings.format hus ((number_mem_finalize hus).mpr hl) hnone
        refine .inr (.inl ⟨hstump, ?_⟩)
        rw [hequals, he]
        simp [hmath]
      · -- all numbers can be read, so that only a mathematical error is left
        have hread : ∀ literal, .number literal ∈ us → (Decimal.readFloat? literal).isSome := by
          intro literal hl
          have hl' := (number_mem_finalize hus).mp hl
          rw [h.readable_iff hl']
          by_contra hend
          exact hstump (h.beginsWithStump_iff.mpr ⟨literal, hl', hend⟩)
        refine .inr (.inr ⟨hnot, hstump, ?_⟩)
        rcases evaluateTokens_of_readable c.angleUnit c.settings.format hus
          (h.finalize_expression hus) hread with ⟨r, hr⟩ | ⟨e, he, hmath⟩
        · exact ⟨r.display, by rw [hequals, hr]⟩
        · exact ⟨errorText, by rw [hequals, he]; simp [hmath]⟩

/-- **When equals is ignored.** In every reachable state equals is ignored exactly where
there is nothing to evaluate or the expression begins with a stump, and in all other
states it evaluates. The numbers of the expression can be read if they end on a digit;
one that does not is the first token and the text of a result that was cut. -/
theorem equals_ignored_iff (settings : Settings) (events : List Event) :
    ((((new settings).run events).apply .equals).1 = .ignored ↔
        ((new settings).run events).NothingToEvaluate ∨
          ((new settings).run events).BeginsWithStump) ∧
      ((((new settings).run events).apply .equals).1 ≠ .ignored →
        ∃ text, (((new settings).run events).apply .equals).1 = .evaluated text) ∧
      ∀ literal, .number literal ∈ ((new settings).run events).expression →
        ((Decimal.readFloat? literal).isSome = true ↔ EndsOnDigit literal) ∧
        (¬ EndsOnDigit literal →
          (∃ rest, ((new settings).run events).expression = .number literal :: rest) ∧
          ∃ x, Decimal.isFinite x = true ∧ settings.format.Cuts (settings.format.round x) ∧
            literal = Decimal.dropFinalPoints
              ((Decimal.Scientific.ofFloat (settings.format.round x)).standard.take
                settings.format.width)) := by
  have h := sound_run settings events
  have hsettings : ((new settings).run events).settings = settings := run_settings _ events
  generalize (new settings).run events = c at h hsettings
  subst hsettings
  refine ⟨?_, ?_, fun literal hl => ⟨h.readable_iff hl, h.unreadable hl⟩⟩
  · rcases h.equals_cases with ⟨hnothing, heq⟩ | ⟨hstump, heq⟩ | ⟨hnot, hnot', text, heq⟩
    · exact ⟨fun _ => .inl hnothing, fun _ => heq⟩
    · exact ⟨fun _ => .inr hstump, fun _ => heq⟩
    · constructor
      · intro hignored
        rw [Calculator.apply, heq] at hignored
        cases hignored
      · intro hor
        exact (hor.elim hnot hnot').elim
  · intro hne
    rcases h.equals_cases with ⟨_, heq⟩ | ⟨_, heq⟩ | ⟨_, _, text, heq⟩
    · exact absurd heq hne
    · exact absurd heq hne
    · exact ⟨text, heq⟩

/-- With sixteen decimals `1÷30000000` is displayed as `3.33333333e-`, and then equals is
stuck. -/
example :
    (((new { format := { decimals := 16 } }).run
      [.digit 1, .operator .divide, .digit 3, .digit 0, .digit 0, .digit 0, .digit 0, .digit 0,
        .digit 0, .digit 0, .equals]).apply .equals).1 = .ignored := by
  decide +kernel

end Calculator

end PocketCalc
