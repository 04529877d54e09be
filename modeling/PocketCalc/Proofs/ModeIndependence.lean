import PocketCalc.Proofs.EntryContext
import PocketCalc.Proofs.EntryOrder

/-!
# What mode and unit of angles decide

The mode of a calculator decides the usual limit of digits and whether the unit of angles
can be toggled; the unit decides what sine, cosine and tangent make of their arguments.
Neither is looked at anywhere else. So calculators that write results alike and have the same
limit of digits do the same under all keys but the three of these functions, whatever their
modes and units are.

* `valueOf_withFunctions` — an expression has the same value under other functions if those
  that occur in it are the same.
* `FreeOfAngles.apply` — only its own key enters a function.
* `mode_and_unit_do_not_leak` — **the two runs cannot be told apart**, save by what the key
  for the unit reports.
-/

namespace PocketCalc

/-! ## Values under other functions -/

section

variable {α : Type}

/-- The same arithmetic with other functions. -/
def Arithmetic.withFunctions (A : Arithmetic α) (g : Func → α → α) : Arithmetic α :=
  { A with function := g }

variable {A : Arithmetic α} {g : Func → α → α}

/-- Conversion computes nothing. -/
theorem convert_withFunctions (ts : List Token) (held : List Postfix.Held) :
    Postfix.convert (A.withFunctions g) ts held = Postfix.convert A ts held := by
  induction ts generalizing held with
  | nil => rfl
  | cons t ts ih => cases t <;> simp [Postfix.convert, Arithmetic.withFunctions, ← ih]

/-- The machine applies no function but those of the sequence. -/
theorem run_withFunctions {items : List (Postfix.Item α)}
    (h : ∀ f, .function f ∈ items → g f = A.function f) (m : Machine α) :
    Machine.run (A.withFunctions g) m items = Machine.run A m items := by
  induction items generalizing m with
  | nil => rfl
  | cons i items ih =>
      have hstep : Machine.step (A.withFunctions g) m i = Machine.step A m i := by
        cases i with
        | value v => rfl
        | operator op => rfl
        | function f =>
            have hf : g f = A.function f := h f (by simp)
            cases hstack : m.stack with
            | nil => simp [Machine.step, hstack]
            | cons x rest =>
                simp [Machine.step, hstack, Arithmetic.withFunctions, hf, Arithmetic.invertsZero]
      have hrest := ih (fun f hf => h f (List.mem_cons_of_mem _ hf)) (Machine.step A m i)
      simp only [Machine.run, List.foldl_cons, hstep] at hrest ⊢
      exact hrest

/-- Conversion brings in no function, -/
theorem function_mem_of_ofTokens {ts : List Token} {items : List (Postfix.Item α)}
    (h : Postfix.ofTokens A ts = .ok items) {f : Func} (hf : .function f ∈ items) :
    .function f ∈ ts := by
  have hmem := (Postfix.ofTokens_conserves h).2.subset hf
  obtain ⟨t, ht, hitem⟩ := List.mem_filterMap.mp hmem
  cases t with
  | function g =>
      obtain rfl : g = f := by simpa [Token.item?] using hitem
      exact ht
  | _ => simp [Token.item?] at hitem

/-- and completion none either. -/
theorem function_mem_of_finalize {ts us : List Token} (h : finalize ts = .ok us) {f : Func}
    (hf : .function f ∈ us) : .function f ∈ ts := by
  rw [finalize_eq] at h
  split at h
  · cases h
  · obtain rfl := Except.ok.inj h
    rcases List.mem_append.mp hf with hin | hin
    · exact (List.rdropWhile_prefix Token.isDangling ts).subset hin
    · exact absurd (List.eq_of_mem_replicate hin) (by simp)

/-- **An expression has the same value under other functions** if those that occur in it
are the same. -/
theorem valueOf_withFunctions {ts : List Token}
    (h : ∀ f, .function f ∈ ts → g f = A.function f) :
    valueOf (A.withFunctions g) ts = valueOf A ts := by
  cases hus : finalize ts with
  | error e => simp [valueOf, hus, bind, Except.bind]
  | ok us =>
      cases hitems : Postfix.ofTokens A us with
      | error e =>
          have hsame : Postfix.ofTokens (A.withFunctions g) us = .error e :=
            (convert_withFunctions us []).trans hitems
          simp [valueOf, hus, hitems, hsame, bind, Except.bind]
      | ok items =>
          have hsame : Postfix.ofTokens (A.withFunctions g) us = .ok items :=
            (convert_withFunctions us []).trans hitems
          have hfunctions : ∀ f, .function f ∈ items → g f = A.function f := by
            intro f hf
            exact h f (function_mem_of_finalize hus (function_mem_of_ofTokens hitems hf))
          have hrun := run_withFunctions hfunctions {}
          simp only [valueOf, hus, hitems, hsame, bind, Except.bind, evaluate, hrun]
          rfl

end

/-! ## Evaluations in another unit -/

/-- A function of an angle: sine, cosine or tangent. -/
def Token.isAngular : Token → Bool
  | function f => f.isTrigonometric
  | _ => false

/-- Only the functions of an angle look at its unit. -/
theorem applyFunction_of_not_trigonometric {f : Func} (h : f.isTrigonometric = false)
    (u u' : AngleUnit) : Arithmetic.applyFunction u f = Arithmetic.applyFunction u' f := by
  cases f <;> first | rfl | cases h

/-- **Without functions of an angle the unit does not matter.** -/
theorem evaluateTokens_unit_eq {ts : List Token} (h : ∀ t ∈ ts, t.isAngular = false)
    (u u' : AngleUnit) (f : NumberFormat) : evaluateTokens u f ts = evaluateTokens u' f ts := by
  have hfunctions : ∀ f, .function f ∈ ts →
      Arithmetic.applyFunction u f = (Arithmetic.binary64 u').function f := by
    intro f hf
    exact applyFunction_of_not_trigonometric (h _ hf) u u'
  have hvalue : valueOf (.binary64 u) ts = valueOf (.binary64 u') ts :=
    valueOf_withFunctions (A := .binary64 u') hfunctions
  simp only [evaluateTokens, hvalue]

namespace Calculator

/-! ## Entry without angles -/

/-- No function of an angle has been entered. -/
def FreeOfAngles (c : Calculator) : Prop :=
  ∀ t ∈ c.entered, t.isAngular = false

section

variable {c : Calculator}

theorem FreeOfAngles.push (h : c.FreeOfAngles) {t : Token} (ht : t.isAngular = false) :
    (c.push t).FreeOfAngles :=
  List.forall_mem_cons.mpr ⟨ht, h⟩

theorem FreeOfAngles.startFresh (h : c.FreeOfAngles) : c.startFresh.FreeOfAngles := by
  unfold Calculator.startFresh
  split
  · simp [FreeOfAngles]
  · exact h

theorem pendingNumber?_not_angular {buffer : List Char} {t : Token}
    (h : pendingNumber? buffer = some t) : t.isAngular = false := by
  unfold pendingNumber? at h
  simp only at h
  split at h
  · cases h
  · obtain rfl := Option.some.inj h
    rfl

theorem FreeOfAngles.settle (h : c.FreeOfAngles) : c.settle.FreeOfAngles := by
  have hbuild : c.buildOn.FreeOfAngles := by
    rw [FreeOfAngles, buildOn_entered]
    exact h
  unfold Calculator.settle commit
  split
  · next number hnumber =>
    exact List.forall_mem_cons.mpr ⟨pendingNumber?_not_angular hnumber, hbuild⟩
  · exact hbuild

theorem FreeOfAngles.implicitMultiply (h : c.FreeOfAngles) :
    c.implicitMultiply.FreeOfAngles := by
  unfold Calculator.implicitMultiply
  split
  · exact h.push rfl
  · exact h

theorem FreeOfAngles.beforeValue (h : c.FreeOfAngles) : c.beforeValue.FreeOfAngles :=
  h.settle.implicitMultiply

theorem FreeOfAngles.beforeNumber (h : c.FreeOfAngles) : c.beforeNumber.FreeOfAngles := by
  unfold Calculator.beforeNumber
  split
  · exact h.implicitMultiply
  · exact h

theorem FreeOfAngles.putOperator (h : c.FreeOfAngles) (op : Operator) :
    (c.putOperator op).FreeOfAngles := by
  unfold Calculator.putOperator
  split
  · next old rest hentered =>
    rw [FreeOfAngles, hentered] at h
    exact List.forall_mem_cons.mpr ⟨rfl, (List.forall_mem_cons.mp h).2⟩
  · simp [FreeOfAngles, Token.isAngular]
  · exact List.forall_mem_cons.mpr ⟨rfl, h⟩

theorem FreeOfAngles.power (h : c.FreeOfAngles) : c.power.2.FreeOfAngles := by
  unfold Calculator.power
  split
  · exact h.settle.push rfl
  · exact h

theorem FreeOfAngles.closeParen (h : c.FreeOfAngles) : c.closeParen.2.FreeOfAngles := by
  unfold Calculator.closeParen
  split
  · exact h.settle.push rfl
  · exact h

/-- What is left of the tokens is still free of angles. -/
theorem FreeOfAngles.backspace (h : c.FreeOfAngles) : c.backspace.2.FreeOfAngles := by
  unfold Calculator.backspace
  split
  · exact h
  · split
    · exact h
    · split
      · exact h
      · next f rest hentered =>
        rw [FreeOfAngles, hentered] at h
        exact (List.forall_mem_cons.mp (List.forall_mem_cons.mp h).2).2
      · next literal rest hentered =>
        rw [FreeOfAngles, hentered] at h
        exact (List.forall_mem_cons.mp h).2
      · next t rest _ _ hentered =>
        rw [FreeOfAngles, hentered] at h
        exact (List.forall_mem_cons.mp h).2

theorem FreeOfAngles.equals (h : c.FreeOfAngles) : c.equals.2.FreeOfAngles := by
  unfold Calculator.equals
  simp only
  split
  · simp [FreeOfAngles, Token.isAngular]
  · split
    · simp [FreeOfAngles]
    · exact h

/-- **Only its own key enters a function of an angle.** -/
theorem FreeOfAngles.apply (h : c.FreeOfAngles) {e : Event}
    (he : ∀ f, e = .function f → f.isTrigonometric = false) :
    (c.apply e).2.FreeOfAngles := by
  cases e with
  | digit d =>
      rw [Calculator.apply]
      split
      · unfold Calculator.digit
        simp only
        split
        · exact h
        · exact h.startFresh.beforeNumber
      · exact h
  | decimalPoint =>
      rw [Calculator.apply, Calculator.decimalPoint]
      split
      · exact h
      · simp only
        split
        · exact h.startFresh.beforeNumber
        · exact h.startFresh
  | operator op =>
      rw [Calculator.apply, Calculator.operator]
      split
      · exact h.power
      · split
        · exact h
        · exact h.settle.putOperator op
  | function f => exact (h.beforeValue.push (t := .function f) (he f rfl)).push rfl
  | constant k => exact h.beforeValue.push rfl
  | openOrCloseParen =>
      rw [Calculator.apply, Calculator.openOrCloseParen]
      split
      · exact h.closeParen
      · exact h.beforeValue.push rfl
  | openParen => exact h.beforeValue.push rfl
  | closeParen => exact h.closeParen
  | power => exact h.power
  | powerOfTwo =>
      rw [Calculator.apply, Calculator.powerOfTwo]
      split
      · exact (h.settle.push rfl).push rfl
      · exact h
  | exponential => exact (h.beforeValue.push rfl).push rfl
  | backspace => exact h.backspace
  | clear => simp [FreeOfAngles, Calculator.apply, clear]
  | equals => exact h.equals
  | toggleAngleUnit =>
      rw [Calculator.apply, Calculator.toggleAngleUnit]
      split
      · exact h
      · exact h

/-- The expression is made of what was entered and the number being typed. -/
theorem FreeOfAngles.expression (h : c.FreeOfAngles) :
    ∀ t ∈ c.expression, t.isAngular = false := by
  intro t ht
  rcases List.mem_append.mp ht with hin | hin
  · exact h t (List.mem_reverse.mp hin)
  · exact pendingNumber?_not_angular (Option.mem_toList.mp hin)

end

/-! ## Runs side by side -/

/-- The states hold the same entry, without functions of an angle, and the same preview.
They may differ in modes and units: results are written alike and the limits of digits
agree. -/
structure SameEntry (a b : Calculator) : Prop where
  preview : a.preview = b.preview
  entry : b = a.inContext b.context
  format : a.settings.format = b.settings.format
  limit : a.settings.digitLimit = b.settings.digitLimit
  free : a.FreeOfAngles

variable {a b : Calculator}

theorem SameEntry.apply_entry (h : SameEntry a b) {e : Event} (he : e.isEntry = true)
    (hangle : ∀ f, e = .function f → f.isTrigonometric = false) :
    (a.apply e).1 = (b.apply e).1 ∧ SameEntry (a.apply e).2 (b.apply e).2 := by
  have hstep : b.apply e = along b.context (a.apply e) := by
    rw [h.entry]
    exact a.apply_inContext (k := b.context) h.limit.symm he
  have hcontext := (a.apply_effect e).context_eq he
  have hsettings : (a.apply e).2.settings = a.settings := congrArg Context.settings hcontext
  have hpreview : (a.apply e).2.preview = a.preview := congrArg Context.preview hcontext
  rw [hstep]
  refine ⟨rfl, ?_⟩
  exact {
    preview := hpreview.trans h.preview
    entry := rfl
    format := by rw [hsettings]; exact h.format
    limit := by rw [hsettings]; exact h.limit
    free := h.free.apply hangle }

theorem SameEntry.expression (h : SameEntry a b) : a.expression = b.expression := by
  rw [h.entry]
  rfl

/-- The expressions are the same and have no angles, so they have the same value. -/
theorem SameEntry.apply_equals (h : SameEntry a b) :
    (a.apply .equals).1 = (b.apply .equals).1 ∧
      SameEntry (a.apply .equals).2 (b.apply .equals).2 := by
  have hvalue : evaluateTokens b.angleUnit b.settings.format b.expression =
      evaluateTokens a.angleUnit a.settings.format a.expression := by
    rw [← h.expression, ← h.format]
    exact evaluateTokens_unit_eq h.free.expression b.angleUnit a.angleUnit a.settings.format
  have hsame := h.expression
  show a.equals.1 = b.equals.1 ∧ SameEntry a.equals.2 b.equals.2
  cases hresult : evaluateTokens a.angleUnit a.settings.format a.expression with
  | ok r =>
      rw [equals_of_ok hresult, equals_of_ok (hvalue.trans hresult), ← hsame]
      exact ⟨rfl, rfl, rfl, h.format, h.limit, by simp [FreeOfAngles, Token.isAngular]⟩
  | error e =>
      cases hmath : e.isMathError with
      | true =>
          rw [equals_of_mathError hresult hmath, equals_of_mathError (hvalue.trans hresult) hmath,
            ← hsame]
          exact ⟨rfl, rfl, rfl, h.format, h.limit, by simp [FreeOfAngles]⟩
      | false =>
          rw [equals_of_otherError hresult hmath,
            equals_of_otherError (hvalue.trans hresult) hmath]
          exact ⟨rfl, h⟩

/-- The key for the unit of angles changes nothing but the unit. -/
theorem SameEntry.apply_toggle (h : SameEntry a b) :
    SameEntry (a.apply .toggleAngleUnit).2 (b.apply .toggleAngleUnit).2 := by
  have hentry : ∀ (c : Calculator),
      (c.apply .toggleAngleUnit).2 =
        { c with angleUnit := (c.apply .toggleAngleUnit).2.angleUnit } := by
    intro c
    rw [Calculator.apply, toggleAngleUnit]
    split <;> rfl
  rw [hentry a, hentry b]
  obtain ⟨hpreview, hsame, hformat, hlimit, hfree⟩ := h
  refine ⟨hpreview, ?_, hformat, hlimit, hfree⟩
  rw [hsame]
  rfl

/-- **Every key keeps the entries the same**, and reports the same unless it is the key for
the unit of angles. -/
theorem SameEntry.apply (h : SameEntry a b) {e : Event}
    (hangle : ∀ f, e = .function f → f.isTrigonometric = false) :
    (e ≠ .toggleAngleUnit → (a.apply e).1 = (b.apply e).1) ∧
      SameEntry (a.apply e).2 (b.apply e).2 := by
  cases he : e.isEntry with
  | true =>
      obtain ⟨hsame, hafter⟩ := h.apply_entry he hangle
      exact ⟨fun _ => hsame, hafter⟩
  | false =>
      cases e with
      | clear =>
          refine ⟨fun _ => rfl, rfl, ?_, h.format, h.limit, ?_⟩
          · rw [h.entry]
            rfl
          · simp [FreeOfAngles, Calculator.apply, clear]
      | equals => exact ⟨fun _ => h.apply_equals.1, h.apply_equals.2⟩
      | toggleAngleUnit => exact ⟨fun hne => absurd rfl hne, h.apply_toggle⟩
      | _ => cases he

/-! ## Nothing of mode and unit is seen -/

/-- What is looked at behind a step: the outcome, save that of the key for the unit of
angles, the tokens and the buffer, the flags, the preview and the line displayed. -/
structure View where
  event : Event
  outcome : Option Outcome
  tokens : List Token
  buffer : List Char
  isResult : Bool
  isError : Bool
  preview : Option (List Char)
  line : List Char

def viewOf (step : Event × Outcome × Calculator) : View where
  event := step.1
  outcome := if step.1 = .toggleAngleUnit then none else some step.2.1
  tokens := step.2.2.tokens
  buffer := step.2.2.buffer
  isResult := step.2.2.isResult
  isError := step.2.2.isError
  preview := step.2.2.preview
  line := step.2.2.line

theorem SameEntry.view_eq (h : SameEntry a b) {e : Event} {o o' : Outcome}
    (ho : e ≠ .toggleAngleUnit → o = o') : viewOf (e, o, a) = viewOf (e, o', b) := by
  have houtcome : (if e = .toggleAngleUnit then none else some o) =
      if e = .toggleAngleUnit then none else some o' := by
    split
    · rfl
    · next hne => rw [ho hne]
  simp only [viewOf, houtcome, h.preview]
  rw [h.entry]
  rfl

theorem SameEntry.views_eq (h : SameEntry a b) {events : List Event}
    (hangles : ∀ f, .function f ∈ events → f.isTrigonometric = false) :
    (a.trace events).map viewOf = (b.trace events).map viewOf := by
  induction events generalizing a b with
  | nil => rfl
  | cons e events ih =>
      have hstep := h.apply (e := e) fun f hf => hangles f (by simp [hf])
      have hrest := ih hstep.2 fun f hf => hangles f (List.mem_cons_of_mem _ hf)
      simp only [trace, List.map_cons, hrest]
      rw [hstep.2.view_eq hstep.1]

/-- **Mode and unit of angles do not leak into evaluation.** Two calculators write results
in the same format and have the same limit of digits; their modes and the units they start
with are arbitrary. Under the same keys, none of them sine, cosine or tangent, they cannot be
told apart: behind every step there are the same tokens, buffer, flags, preview and line on
the display, and every key but that for the unit of angles reports the same. -/
theorem mode_and_unit_do_not_leak (s t : Settings) (hformat : s.format = t.format)
    (hlimit : s.digitLimit = t.digitLimit) (events : List Event)
    (hangles : ∀ f, .function f ∈ events → f.isTrigonometric = false) :
    ((new s).trace events).map viewOf = ((new t).trace events).map viewOf := by
  have hnew : SameEntry (new s) (new t) := ⟨rfl, rfl, hformat, hlimit, by simp [FreeOfAngles, new]⟩
  exact hnew.views_eq hangles

/-- The theorem applies to a calculator with the four operations and to a scientific one
that starts in degrees, on the keys of `√9÷0=` with the unit toggled in between. -/
theorem views_of_root_over_zero :
    let s : Settings := { mode := .basic, maxDigits := some 8 }
    let t : Settings := { mode := .scientific, angleUnit := .degrees }
    let events : List Event := [.function .sqrt, .digit 9, .closeParen, .toggleAngleUnit,
      .operator .divide, .digit 0, .equals]
    s.format = t.format ∧ s.digitLimit = t.digitLimit ∧
      (∀ f, .function f ∈ events → f.isTrigonometric = false) ∧
      ((new s).trace events).map viewOf = ((new t).trace events).map viewOf := by
  intro s t events
  have hangles : ∀ f, .function f ∈ events → f.isTrigonometric = false := by
    intro f hf
    obtain rfl : f = .sqrt := by simpa [events] using hf
    rfl
  exact ⟨rfl, rfl, hangles, mode_and_unit_do_not_leak s t rfl rfl events hangles⟩

end Calculator

end PocketCalc
