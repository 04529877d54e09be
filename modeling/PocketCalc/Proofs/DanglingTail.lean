import PocketCalc.Proofs.EntryOrder
import PocketCalc.Proofs.FreshStart

/-!
# A dangling tail does not change the answer

Operators, functions and opening parens that nothing follows are taken off when an expression
is completed. So where a value is complete it does not matter how many of these keys are
pressed before equals: they put a tail of dangling tokens behind what was there, or replace
and lengthen that tail, and never reach below it (`Trailing.apply`).

* `finalize_append_dangling` — completion takes the tail off, and closes what it would have
  closed without it.
* `dangling_tail_is_ignored` — **equals gives the same answer with and without the tail.**
-/

namespace PocketCalc

/-! ## Completion -/

/-- **Completion does not see a dangling tail.** -/
theorem finalize_append_dangling (ts : List Token) {tail : List Token}
    (h : ∀ t ∈ tail, t.isDangling = true) : finalize (ts ++ tail) = finalize ts := by
  have hkept : (ts ++ tail).rdropWhile Token.isDangling = ts.rdropWhile Token.isDangling := by
    rw [List.rdropWhile, List.reverse_append,
      List.dropWhile_append_of_pos (by simpa using h), ← List.rdropWhile]
  rw [finalize_eq, finalize_eq, hkept]

/-- An evaluation looks at the completed expression only. -/
theorem evaluateTokens_congr {ts us : List Token} (h : finalize ts = finalize us)
    (unit : AngleUnit) (f : NumberFormat) :
    evaluateTokens unit f ts = evaluateTokens unit f us := by
  simp only [evaluateTokens, valueOf, h]

/-- The keys behind which an expression dangles: operators, the key `^`, functions and
opening parens. -/
def Event.leavesDangling : Event → Bool
  | .operator _ | .power | .function _ | .openParen => true
  | _ => false

namespace Calculator

/-! ## Tails -/

/-- Committing leaves dangling tokens on top of `base`. -/
def Trailing (base : List Token) (c : Calculator) : Prop :=
  ∃ tail, (∀ t ∈ tail, t.isDangling = true) ∧ c.settle.entered = tail ++ base

variable {c s : Calculator} {base : List Token}

theorem settle_entered_of_buffer (h : c.buffer = []) : c.settle.entered = c.entered := by
  have hnil : c.buildOn.buffer = [] := (buildOn_buffer c).trans h
  rw [settle, commit_of_buffer hnil, buildOn_entered]

theorem settle_tokens (c : Calculator) : c.settle.entered.reverse = c.expression := by
  have hcommit := c.buildOn.commit_tokens
  rw [settle, ← tokens, hcommit, expression, expression, tokens, buildOn_entered, buildOn_buffer,
    tokens]

/-- What stands on a tail of dangling tokens, if it dangles itself, lengthens the tail. -/
theorem Trailing.of_entered (h : Trailing base c) (front : List Token)
    (hfront : ∀ t ∈ front, t.isDangling = true) {c' : Calculator} (hbuffer : c'.buffer = [])
    (hentered : c'.entered = front ++ c.settle.entered) : Trailing base c' := by
  obtain ⟨tail, htail, heq⟩ := h
  refine ⟨front ++ tail, ?_, ?_⟩
  · intro t ht
    rcases List.mem_append.mp ht with hin | hin
    · exact hfront t hin
    · exact htail t hin
  · rw [settle_entered_of_buffer hbuffer, hentered, heq, List.append_assoc]

/-- Room for a value is made by a `×` at most. -/
theorem beforeValue_entered (c : Calculator) :
    c.beforeValue.buffer = [] ∧ ∃ front, (∀ t ∈ front, Token.isDangling t = true) ∧
      c.beforeValue.entered = front ++ c.settle.entered := by
  unfold beforeValue implicitMultiply
  split
  · exact ⟨settle_buffer c, [.operator .multiply], by simp [Token.isDangling], rfl⟩
  · exact ⟨settle_buffer c, [], by simp, rfl⟩

theorem Trailing.power (h : Trailing base c) : Trailing base c.power.2 := by
  unfold Calculator.power
  split
  · exact h.of_entered [.operator .power] (by simp [Token.isDangling])
      (settle_buffer c) rfl
  · exact h

/-- **A new operator stands on the tail or replaces an operator of it.** What the tail stands
on ends with a complete value, so the operator that is replaced is none of these tokens. -/
theorem Trailing.putOperator (h : Trailing base c) {t : Token} {rest : List Token}
    (hbase : base = t :: rest) (ht : t.endsValue = true) (op : Operator) :
    Trailing base (c.settle.putOperator op) := by
  obtain ⟨tail, htail, heq⟩ := h
  unfold Calculator.putOperator
  split
  · next old below hentered =>
    cases tail with
    | nil =>
        rw [hentered, hbase] at heq
        obtain rfl : Token.operator old = t := by simpa using (List.cons.inj heq).1
        cases ht
    | cons top tail =>
        obtain ⟨_, hbelow⟩ := List.cons.inj (hentered.symm.trans heq)
        have hrest := (List.forall_mem_cons.mp htail).2
        refine ⟨.operator op :: tail, List.forall_mem_cons.mpr ⟨rfl, hrest⟩, ?_⟩
        let after : Calculator := { c.settle with entered := .operator op :: below }
        have hsettled : after.settle.entered = .operator op :: below :=
          settle_entered_of_buffer (settle_buffer c)
        rw [hsettled, hbelow]
        rfl
  · next hentered =>
    rw [hentered, hbase] at heq
    simp at heq
  · exact Trailing.of_entered ⟨tail, htail, heq⟩ [.operator op] (by simp [Token.isDangling])
      (settle_buffer c) rfl

/-- **A key of the tail keeps to the tail.** -/
theorem Trailing.apply (h : Trailing base c) {t : Token} {rest : List Token}
    (hbase : base = t :: rest) (ht : t.endsValue = true) {e : Event}
    (he : e.leavesDangling = true) : Trailing base (c.apply e).2 := by
  obtain ⟨hbuffer, front, hfront, hentered⟩ := c.beforeValue_entered
  cases e with
  | operator op =>
      rw [Calculator.apply, Calculator.operator]
      split
      · exact h.power
      · split
        · exact h
        · exact h.putOperator hbase ht op
  | power => exact h.power
  | function f =>
      refine h.of_entered (.openParen :: .function f :: front) ?_ hbuffer ?_
      · exact List.forall_mem_cons.mpr ⟨rfl, List.forall_mem_cons.mpr ⟨rfl, hfront⟩⟩
      · simp [Calculator.apply, Calculator.function, push, hentered]
  | openParen =>
      refine h.of_entered (.openParen :: front) ?_ hbuffer ?_
      · exact List.forall_mem_cons.mpr ⟨rfl, hfront⟩
      · simp [Calculator.apply, Calculator.openParen, push, hentered]
  | _ => cases he

theorem Trailing.run (h : Trailing base c) {t : Token} {rest : List Token}
    (hbase : base = t :: rest) (ht : t.endsValue = true) {events : List Event}
    (hevents : ∀ e ∈ events, e.leavesDangling = true) : Trailing base (c.run events) := by
  induction events generalizing c with
  | nil => exact h
  | cons e events ih =>
      obtain ⟨he, hrest⟩ := List.forall_mem_cons.mp hevents
      exact ih (h.apply hbase ht he) hrest

/-- Only entry and flags differ behind keys of the tail. -/
theorem run_tail_context (c : Calculator) {events : List Event}
    (hevents : ∀ e ∈ events, e.leavesDangling = true) : (c.run events).context = c.context := by
  induction events generalizing c with
  | nil => rfl
  | cons e events ih =>
      obtain ⟨he, hrest⟩ := List.forall_mem_cons.mp hevents
      have hentry : e.isEntry = true := by
        cases e <;> first | rfl | cases he
      exact (ih (c.apply e).2 hrest).trans ((c.apply_effect e).context_eq hentry)

/-! ## Equals -/

/-- States whose expressions are completed alike give the same answer. -/
theorem equals_of_finalize_eq {a b : Calculator} (hsettings : a.settings = b.settings)
    (hunit : a.angleUnit = b.angleUnit) (hfinal : finalize a.expression = finalize b.expression) :
    a.equals.1 = b.equals.1 ∧
      ∀ text, a.equals.1 = .evaluated text → SameButPreview a.equals.2 b.equals.2 := by
  have hvalue : evaluateTokens b.angleUnit b.settings.format b.expression =
      evaluateTokens a.angleUnit a.settings.format a.expression := by
    rw [hsettings, hunit]
    exact evaluateTokens_congr hfinal.symm _ _
  cases hresult : evaluateTokens a.angleUnit a.settings.format a.expression with
  | ok r =>
      rw [equals_of_ok hresult, equals_of_ok (hvalue.trans hresult)]
      refine ⟨rfl, fun _ _ => ⟨some (expressionText b.expression [] ++ [' ', '=']), ?_⟩⟩
      rw [hsettings, hunit]
  | error e =>
      cases hmath : e.isMathError with
      | true =>
          rw [equals_of_mathError hresult hmath, equals_of_mathError (hvalue.trans hresult) hmath]
          refine ⟨rfl, fun _ _ => ⟨some (expressionText b.expression [] ++ [' ', '=']), ?_⟩⟩
          rw [hsettings, hunit]
      | false =>
          rw [equals_of_otherError hresult hmath,
            equals_of_otherError (hvalue.trans hresult) hmath]
          exact ⟨rfl, nofun⟩

/-- A tail is taken off before anything is closed or evaluated. -/
theorem Trailing.finalize_eq (h : Trailing s.settle.entered c) :
    finalize s.expression = finalize c.expression := by
  obtain ⟨tail, htail, heq⟩ := h
  rw [← settle_tokens, ← settle_tokens, heq, List.reverse_append]
  exact (finalize_append_dangling _ (by simpa using htail)).symm

/-- **A dangling tail does not change the answer.** In a reachable state a value is complete:
a number is being typed, or the last token is a number, a constant or a closing paren. Any
operators, powers, functions and opening parens may be pressed before equals: it reports what
it reports without them, and where it evaluates it leaves the same state but for the
preview. -/
theorem dangling_tail_is_ignored (settings : Settings) (before tail : List Event)
    (hvalue : ((new settings).run before).buffer ≠ [] ∨
      ∃ t, ((new settings).run before).tokens.getLast? = some t ∧ t.endsValue = true)
    (htail : ∀ e ∈ tail, e.leavesDangling = true) :
    let s := (new settings).run before
    ((s.run tail).apply .equals).1 = (s.apply .equals).1 ∧
      ∀ text, (s.apply .equals).1 = .evaluated text →
        SameButPreview (s.apply .equals).2 ((s.run tail).apply .equals).2 := by
  intro s
  have hsound : Sound s := sound_run settings before
  have hcomplete : s.hasValue = true := hasValue_iff.mpr hvalue
  -- the committed tokens end with that value
  have hends : s.settle.lastEndsValue = true := hsound.settle_lastEndsValue.trans hcomplete
  obtain ⟨t, rest, hbase, ht⟩ : ∃ t rest, s.settle.entered = t :: rest ∧ t.endsValue = true := by
    cases hentered : s.settle.entered with
    | nil => simp [lastEndsValue, hentered] at hends
    | cons t rest => exact ⟨t, rest, rfl, by simpa [lastEndsValue, hentered] using hends⟩
  have hstart : Trailing s.settle.entered s := ⟨[], by simp, rfl⟩
  have hrun := hstart.run hbase ht htail
  have hcontext := s.run_tail_context htail
  have hsettings : (s.run tail).settings = s.settings := congrArg Context.settings hcontext
  have hunit : (s.run tail).angleUnit = s.angleUnit := congrArg Context.angleUnit hcontext
  obtain ⟨hsame, hafter⟩ := equals_of_finalize_eq hsettings.symm hunit.symm hrun.finalize_eq
  exact ⟨hsame.symm, hafter⟩

/-- The theorem applies to `(2+3`, with `×sin((` and a few keys that are ignored behind it. -/
theorem tail_of_open_sum :
    let s := (new {}).run [.openParen, .digit 2, .operator .add, .digit 3]
    let tail : List Event := [.operator .multiply, .power, .function .sin, .openParen,
      .operator .subtract]
    s.buffer ≠ [] ∧ (∀ e ∈ tail, e.leavesDangling = true) ∧
      ((s.run tail).apply .equals).1 = (s.apply .equals).1 ∧
      SameButPreview (s.apply .equals).2 ((s.run tail).apply .equals).2 := by
  intro s tail
  have hbuffer : s.buffer ≠ [] := by decide +kernel
  have htail : ∀ e ∈ tail, e.leavesDangling = true := by decide
  have hvalue : (s.apply .equals).1 = .evaluated ['5'] := by decide +kernel
  obtain ⟨hsame, hafter⟩ := dangling_tail_is_ignored {} _ tail (.inl hbuffer) htail
  exact ⟨hbuffer, htail, hsame, hafter ['5'] hvalue⟩

end Calculator

end PocketCalc
