import PocketCalc.Proofs.EntryContext
import PocketCalc.Proofs.ResultState

/-!
# A finished calculation leaves no residue

Two runs are compared, step by step: one goes on from a state that shows a result or an
error, the other from the same state cleared. They are related by `Follows`: the first
still shows its error while the second is empty, or they are the same but for the preview.
Every event keeps them related and reports the same in both (`Follows.apply`); an
evaluation makes them equal.

An error is followed like that by any keys, a result by those that begin with a digit or a
point.

* `SameButPreview.apply` — states that differ in the preview go on the same.
* `ShowsError.apply_buildOn` — an error is gone as soon as a key does something.
* `no_residue` — **what follows a finished calculation is what follows a cleared one.**
-/

namespace PocketCalc

/-- The keys that begin a number. -/
def Event.isTyping : Event → Bool
  | .digit _ | .decimalPoint => true
  | _ => false

namespace Calculator

variable {a b : Calculator}

/-- Two steps report the same and leave related states, and equal ones if they evaluate. -/
structure StepsAlike (R : Calculator → Calculator → Prop) (r s : Outcome × Calculator) :
    Prop where
  outcome : r.1 = s.1
  after : R r.2 s.2
  evaluated : ∀ text, r.1 = .evaluated text → r.2 = s.2

/-! ## States that differ in the preview -/

/-- The states differ in the preview at most. -/
def SameButPreview (a b : Calculator) : Prop :=
  ∃ preview, b = { a with preview := preview }

theorem SameButPreview.refl (a : Calculator) : SameButPreview a a :=
  ⟨a.preview, rfl⟩

/-- Evaluating looks at the expression, the unit of angles and the settings. -/
theorem equals_congr (hsettings : a.settings = b.settings) (hunit : a.angleUnit = b.angleUnit)
    (hexpression : a.expression = b.expression) :
    (a.apply .equals).1 = (b.apply .equals).1 ∧
      ((a.apply .equals).1.changed = true → (a.apply .equals).2 = (b.apply .equals).2) := by
  simp only [Calculator.apply, equals]
  rw [hsettings, hunit, hexpression]
  cases evaluateTokens b.angleUnit b.settings.format b.expression with
  | ok r => exact ⟨rfl, fun _ => rfl⟩
  | error e =>
      cases hmath : e.isMathError with
      | true => simp [hmath]
      | false => simp [hmath, Outcome.changed]

/-- Only equals evaluates. -/
theorem Effect.eq_equals {c c' : Calculator} {e : Event} {text : List Char}
    (h : Effect c e (.evaluated text) c') : e = .equals := by
  cases h with
  | result _ => rfl
  | error => rfl

theorem apply_toggle (h : a.settings.mode.hasAngleUnit = true) :
    a.apply .toggleAngleUnit = (.updated, { a with angleUnit := a.angleUnit.toggled }) := by
  rw [Calculator.apply, toggleAngleUnit, if_pos h]

theorem apply_toggle_of_fixed (h : a.settings.mode.hasAngleUnit = false) :
    a.apply .toggleAngleUnit = (.ignored, a) := by
  rw [Calculator.apply, toggleAngleUnit, if_neg (by simp [h])]

section

variable {R : Calculator → Calculator → Prop}

/-- Where an event changes nothing related states stay related. -/
theorem StepsAlike.of_unchanged (h : R a b) {e : Event}
    (hsame : (a.apply e).1 = (b.apply e).1) (hno : (a.apply e).1.changed = false) :
    StepsAlike R (a.apply e) (b.apply e) where
  outcome := hsame
  after := by
    rw [(a.apply_effect e).unchanged hno, (b.apply_effect e).unchanged (hsame ▸ hno)]
    exact h
  evaluated := by
    intro text htext
    rw [htext] at hno
    cases hno

/-- Both toggle the unit of angles or neither does. -/
theorem StepsAlike.toggle (hmode : a.settings.mode = b.settings.mode) (h : R a b)
    (htoggled : R { a with angleUnit := a.angleUnit.toggled }
      { b with angleUnit := b.angleUnit.toggled }) :
    StepsAlike R (a.apply .toggleAngleUnit) (b.apply .toggleAngleUnit) := by
  cases ha : a.settings.mode.hasAngleUnit with
  | true =>
      have hb : b.settings.mode.hasAngleUnit = true := hmode ▸ ha
      rw [apply_toggle ha, apply_toggle hb]
      exact ⟨rfl, htoggled, nofun⟩
  | false =>
      have hb : b.settings.mode.hasAngleUnit = false := hmode ▸ ha
      rw [apply_toggle_of_fixed ha, apply_toggle_of_fixed hb]
      exact ⟨rfl, h, nofun⟩

theorem StepsAlike.mono {S : Calculator → Calculator → Prop} {r s : Outcome × Calculator}
    (h : StepsAlike R r s) (hRS : ∀ {a b}, R a b → S a b) : StepsAlike S r s :=
  ⟨h.outcome, hRS h.after, h.evaluated⟩

end

/-- A key of entry keeps both the difference and what it is about. -/
theorem SameButPreview.apply_entry (h : SameButPreview a b) {e : Event} (he : e.isEntry = true) :
    StepsAlike SameButPreview (a.apply e) (b.apply e) := by
  obtain ⟨preview, rfl⟩ := h
  -- the other state is this one in a context of its own, which the key keeps
  let k : Context := ⟨a.settings, a.angleUnit, preview⟩
  have hstep : Calculator.apply { a with preview := preview } e = along k (a.apply e) :=
    a.apply_inContext (k := k) rfl he
  have hcontext := (a.apply_effect e).context_eq he
  have hsettings : (a.apply e).2.settings = a.settings := congrArg Context.settings hcontext
  have hunit : (a.apply e).2.angleUnit = a.angleUnit := congrArg Context.angleUnit hcontext
  rw [hstep]
  refine ⟨rfl, ⟨preview, ?_⟩, ?_⟩
  · show (a.apply e).2.inContext ⟨a.settings, a.angleUnit, preview⟩ = _
    rw [← hsettings, ← hunit]
    rfl
  · intro text htext
    have hevaluates := a.apply_effect e
    rw [htext] at hevaluates
    rw [hevaluates.eq_equals] at he
    cases he

/-- Equal expressions evaluate to equal states. -/
theorem SameButPreview.apply_equals (h : SameButPreview a b) :
    StepsAlike SameButPreview (a.apply .equals) (b.apply .equals) := by
  have hab := h
  obtain ⟨preview, rfl⟩ := h
  obtain ⟨hsame, hstate⟩ := equals_congr (a := a) (b := { a with preview := preview }) rfl rfl rfl
  cases hchanged : (a.apply .equals).1.changed with
  | false => exact .of_unchanged hab hsame hchanged
  | true =>
      have heq := hstate hchanged
      exact ⟨hsame, heq ▸ .refl _, fun _ _ => heq⟩

/-- **The preview is not looked at.** States that differ in it report the same and go on to
differ in it at most, until they evaluate. -/
theorem SameButPreview.apply (h : SameButPreview a b) (e : Event) :
    StepsAlike SameButPreview (a.apply e) (b.apply e) := by
  cases he : e.isEntry with
  | true => exact h.apply_entry he
  | false =>
      cases e with
      | clear =>
          obtain ⟨_, rfl⟩ := h
          exact ⟨rfl, .refl _, fun _ _ => rfl⟩
      | equals => exact h.apply_equals
      | toggleAngleUnit =>
          have hab := h
          obtain ⟨preview, rfl⟩ := h
          exact .toggle rfl hab ⟨preview, rfl⟩
      | _ => cases he

/-! ## Keys that take a result off -/

theorem startFresh_settings (c : Calculator) : c.startFresh.settings = c.settings := by
  cases h : c.isResult <;> simp [startFresh, h]

theorem openNumber_startFresh (c : Calculator) : c.startFresh.openNumber = c.openNumber := by
  cases h : c.isResult <;> simp [startFresh, openNumber, h]

theorem startFresh_startFresh (c : Calculator) : c.startFresh.startFresh = c.startFresh := by
  cases h : c.isResult <;> simp [startFresh, h]

/-- A digit or a point does what it does where the result has been taken off. -/
theorem apply_startFresh {e : Event} (he : e.isTyping = true) :
    (a.apply e).1 = (a.startFresh.apply e).1 ∧
      ((a.apply e).1.changed = true → (a.apply e).2 = (a.startFresh.apply e).2) := by
  cases e with
  | digit d =>
      by_cases hd : d.toNat < 10
      · simp only [Calculator.apply, dif_pos hd, digit, startFresh_settings,
          openNumber_startFresh, startFresh_startFresh]
        split
        · refine ⟨rfl, ?_⟩
          intro hchanged
          cases hchanged
        · exact ⟨rfl, fun _ => rfl⟩
      · simp [Calculator.apply, hd, Outcome.changed]
  | decimalPoint =>
      cases hresult : a.isResult with
      | true => simp [Calculator.apply, decimalPoint, startFresh, hresult]
      | false => simp [startFresh, hresult]
  | _ => cases he

/-- A point behind a result begins a number. -/
theorem apply_decimalPoint (h : a.isResult = true) : (a.apply .decimalPoint).1 = .updated := by
  simp [Calculator.apply, decimalPoint, startFresh, h]

/-- An error is taken off as soon as a key does something: the key finds nothing entered
and does what it does on an empty entry. -/
theorem ShowsError.apply_buildOn (h : a.ShowsError) {e : Event} (he : e ≠ .toggleAngleUnit) :
    (a.apply e).1 = (a.buildOn.apply e).1 ∧
      ((a.apply e).1.changed = true → (a.apply e).2 = (a.buildOn.apply e).2) := by
  obtain ⟨settings, entered, buffer, isResult, isError, unit, preview⟩ := a
  obtain ⟨rfl, rfl, rfl, rfl, _⟩ := h
  cases e with
  | digit d => exact apply_startFresh rfl
  | decimalPoint => exact apply_startFresh rfl
  | operator op =>
      cases op with
      | power => exact ⟨rfl, nofun⟩
      | _ => exact ⟨rfl, fun _ => rfl⟩
  | function f => exact ⟨rfl, fun _ => rfl⟩
  | constant k => exact ⟨rfl, fun _ => rfl⟩
  | openOrCloseParen => exact ⟨rfl, fun _ => rfl⟩
  | openParen => exact ⟨rfl, fun _ => rfl⟩
  | closeParen => exact ⟨rfl, nofun⟩
  | power => exact ⟨rfl, nofun⟩
  | powerOfTwo => exact ⟨rfl, nofun⟩
  | exponential => exact ⟨rfl, fun _ => rfl⟩
  | backspace => exact ⟨rfl, nofun⟩
  | clear => exact ⟨rfl, fun _ => rfl⟩
  | equals => exact equals_congr rfl rfl rfl
  | toggleAngleUnit => exact absurd rfl he

/-! ## Runs side by side -/

/-- The first state still shows its error and the second is the same state cleared, or they
differ in the preview at most. -/
inductive Follows : Calculator → Calculator → Prop
  | shown {s : Calculator} : s.ShowsError → Follows s (s.apply .clear).2
  | same {s c : Calculator} : SameButPreview s c → Follows s c

/-- **Every event keeps an error and its cleared state in step.** -/
theorem Follows.apply (h : Follows a b) (e : Event) :
    StepsAlike Follows (a.apply e) (b.apply e) := by
  have hab := h
  cases h with
  | same h => exact (h.apply e).mono .same
  | shown h =>
      by_cases he : e = .toggleAngleUnit
      · subst he
        have hshown : ShowsError { a with angleUnit := a.angleUnit.toggled } :=
          ⟨h.isResult, h.isError, h.entered, h.buffer, h.preview⟩
        exact .toggle rfl hab (.shown hshown)
      · -- with the error taken off the state is the cleared one, but for the preview
        have hcleared : SameButPreview a.buildOn (a.apply .clear).2 := by
          refine ⟨none, ?_⟩
          simp [Calculator.apply, clear_eq, new, buildOn, h.isResult, h.entered, h.buffer]
        have hstep := hcleared.apply e
        obtain ⟨hsame, hstate⟩ := h.apply_buildOn he
        cases hchanged : (a.apply e).1.changed with
        | false => exact .of_unchanged hab (hsame.trans hstep.outcome) hchanged
        | true =>
            have heq : a.apply e = a.buildOn.apply e := Prod.ext hsame (hstate hchanged)
            rw [heq]
            exact hstep.mono .same

/-- A digit that is accepted, or a point, takes a result off as clearing does. -/
theorem follows_typing (hresult : a.isResult = true) {e : Event} (he : e.isTyping = true)
    (hchanged : (a.apply e).1.changed = true) :
    StepsAlike Follows (a.apply e) ((a.apply .clear).2.apply e) := by
  have hcleared : SameButPreview a.startFresh (a.apply .clear).2 := by
    refine ⟨none, ?_⟩
    simp [Calculator.apply, clear_eq, new, startFresh, hresult]
  obtain ⟨hsame, hstate⟩ := apply_startFresh he
  have heq : a.apply e = a.startFresh.apply e := Prod.ext hsame (hstate hchanged)
  rw [heq]
  exact (hcleared.apply e).mono .same

/-- Every event keeps the states related, and does the same to both. -/
def Lockstep (R : Calculator → Calculator → Prop) : Prop :=
  ∀ {a b}, R a b → ∀ e, StepsAlike R (a.apply e) (b.apply e)

/-- What can be seen of a step: the outcome, the tokens, the buffer and the unit of angles. -/
def observed (step : Event × Outcome × Calculator) :
    Outcome × List Token × List Char × AngleUnit :=
  (step.2.1, step.2.2.tokens, step.2.2.buffer, step.2.2.angleUnit)

section Lockstep

variable {R : Calculator → Calculator → Prop} (hR : Lockstep R)
include hR

theorem Lockstep.run (h : R a b) (events : List Event) : R (a.run events) (b.run events) := by
  induction events generalizing a b with
  | nil => exact h
  | cons e events ih => exact ih (hR h e).after

/-- States are equal from an evaluation on. -/
theorem Lockstep.run_eq (h : R a b) {events : List Event}
    (hevaluated : ∃ step ∈ a.trace events, ∃ text, step.2.1 = .evaluated text) :
    a.run events = b.run events := by
  induction events generalizing a b with
  | nil =>
      obtain ⟨_, hstep, _⟩ := hevaluated
      cases hstep
  | cons e events ih =>
      obtain ⟨step, hstep, text, htext⟩ := hevaluated
      rcases List.mem_cons.mp hstep with rfl | hstep
      · have heq := (hR h e).evaluated text htext
        show (a.apply e).2.run events = (b.apply e).2.run events
        rw [heq]
      · exact ih (hR h e).after ⟨step, hstep, text, htext⟩

/-- Runs from related states look the same if related states do. -/
theorem Lockstep.observed_eq
    (hsee : ∀ {a b}, R a b → a.tokens = b.tokens ∧ a.buffer = b.buffer ∧ a.angleUnit = b.angleUnit)
    (h : R a b) (events : List Event) :
    (a.trace events).map observed = (b.trace events).map observed := by
  induction events generalizing a b with
  | nil => rfl
  | cons e events ih =>
      have hstep := hR h e
      obtain ⟨htokens, hbuffer, hunit⟩ := hsee hstep.after
      simp only [trace, List.map_cons, observed, hstep.outcome, htokens, hbuffer, hunit]
      rw [ih hstep.after]

end Lockstep

/-! ## No residue -/

/-- Two runs on the same events cannot be told apart. -/
structure RunsAlike (a b : Calculator) (events : List Event) : Prop where
  /-- Every step reports the same and leaves the same tokens, buffer and unit of angles. -/
  observed_eq : (a.trace events).map observed = (b.trace events).map observed
  /-- Once the flags coincide nothing but the preview ever differs again, and that no longer
  than until an evaluation. -/
  settled : ∀ front later, front ++ later <+: events →
    (a.run front).isResult = (b.run front).isResult →
    (a.run front).isError = (b.run front).isError →
    SameButPreview (a.run (front ++ later)) (b.run (front ++ later)) ∧
      ((∃ step ∈ (a.run front).trace later, ∃ text, step.2.1 = .evaluated text) →
        a.run (front ++ later) = b.run (front ++ later))

/-- While an error is shown the flags tell the states apart. -/
theorem Follows.sameButPreview (h : Follows a b) (hflag : a.isResult = b.isResult) :
    SameButPreview a b := by
  cases h with
  | same h => exact h
  | shown h =>
      rw [h.isResult] at hflag
      cases hflag

/-- Related states show the same tokens and buffer, and have the same unit of angles. -/
theorem Follows.visible (h : Follows a b) :
    a.tokens = b.tokens ∧ a.buffer = b.buffer ∧ a.angleUnit = b.angleUnit := by
  cases h with
  | shown h => exact ⟨by simp [tokens, Calculator.apply, clear_eq, new, h.entered], h.buffer, rfl⟩
  | same h =>
      obtain ⟨preview, rfl⟩ := h
      exact ⟨rfl, rfl, rfl⟩

theorem Follows.runsAlike (h : Follows a b) (events : List Event) : RunsAlike a b events where
  observed_eq := Lockstep.observed_eq Follows.apply Follows.visible h events
  settled := by
    intro front later _ hresult _
    have hfront := (Lockstep.run Follows.apply h front).sameButPreview hresult
    rw [run_append, run_append]
    exact ⟨Lockstep.run SameButPreview.apply hfront later,
      Lockstep.run_eq SameButPreview.apply hfront⟩

/-- A result is not among the states that a cleared one follows, but it is taken off by the
first key. -/
theorem RunsAlike.cons {e : Event} {events : List Event}
    (hflag : a.isResult ≠ b.isResult) (hstep : StepsAlike Follows (a.apply e) (b.apply e)) :
    RunsAlike a b (e :: events) where
  observed_eq := by
    obtain ⟨htokens, hbuffer, hunit⟩ := hstep.after.visible
    simp only [trace, List.map_cons, observed, hstep.outcome, htokens, hbuffer, hunit]
    rw [(hstep.after.runsAlike events).observed_eq]
  settled := by
    intro front later hprefix hresult herror
    cases front with
    | nil => exact absurd hresult hflag
    | cons first front =>
        obtain ⟨rfl, hrest⟩ := List.cons_prefix_cons.mp hprefix
        exact (hstep.after.runsAlike events).settled front later hrest hresult herror

/-- **A finished calculation leaves no residue.** Take a reachable state that shows a result or
an error, and the same state cleared, which is a new calculator with the same settings and unit
of angles (`clear_eq`). Behind an error all events, and behind a result those that begin with a
point or an accepted digit, do the same to both: the same outcome, tokens, buffer and unit of
angles at every step. Once the flags of the two runs coincide only their previews can differ,
and these no longer than until an evaluation. -/
theorem no_residue (settings : Settings) (before : List Event)
    (hresult : ((new settings).run before).isResult = true) :
    let s := (new settings).run before
    let c := (s.apply .clear).2
    (s.isError = true → ∀ events, RunsAlike s c events) ∧
      (s.isError = false → ∀ first events,
        (first = .decimalPoint ∨ ∃ d, first = .digit d ∧ (s.apply first).1 = .updated) →
        RunsAlike s c (first :: events)) := by
  intro s c
  have hshowing : Showing (latestEvaluation? ((new settings).trace before)) s :=
    showing_run settings before
  refine ⟨?_, ?_⟩
  · intro herror events
    have hshown : s.ShowsError := by
      cases hshowing with
      | entry hnot _ => exact absurd (hresult.symm.trans hnot) (by simp)
      | result h _ => exact absurd (herror.symm.trans h.isError) (by simp)
      | error h _ => exact h
    exact (Follows.shown hshown).runsAlike events
  · intro _ first events hfirst
    have hflag : s.isResult ≠ c.isResult := by
      rw [hresult]
      exact nofun
    have hstep : StepsAlike Follows (s.apply first) (c.apply first) := by
      rcases hfirst with rfl | ⟨d, rfl, hupdated⟩
      · exact follows_typing hresult rfl (by rw [apply_decimalPoint hresult]; rfl)
      · exact follows_typing hresult rfl (by rw [hupdated]; rfl)
    exact .cons hflag hstep

/-- The theorem applies to `1÷0` and to `2+3`. -/
theorem no_residue_of_quotient_and_sum :
    let s := (new {}).run [.digit 1, .operator .divide, .digit 0, .equals]
    let t := (new {}).run [.digit 2, .operator .add, .digit 3, .equals]
    (s.isResult = true ∧ s.isError = true ∧ ∀ events, RunsAlike s (s.apply .clear).2 events) ∧
      t.isResult = true ∧ t.isError = false ∧ (t.apply (.digit 7)).1 = .updated ∧
        ∀ events, RunsAlike t (t.apply .clear).2 (.digit 7 :: events) := by
  intro s t
  have hs : s.isResult = true ∧ s.isError = true := by decide +kernel
  have ht : t.isResult = true ∧ t.isError = false ∧ (t.apply (.digit 7)).1 = .updated := by
    decide +kernel
  refine ⟨⟨hs.1, hs.2, (no_residue {} _ hs.1).1 hs.2⟩, ht.1, ht.2.1, ht.2.2, ?_⟩
  intro events
  exact (no_residue {} _ ht.1).2 ht.2.1 _ events (.inr ⟨7, rfl, ht.2.2⟩)

end Calculator

end PocketCalc
