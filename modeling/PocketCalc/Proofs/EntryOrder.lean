import PocketCalc.Proofs.EventEffects

/-!
# Entry keeps expressions readable

Whatever keys are pressed, the committed tokens stay a beginning of an infix
expression. The keys depend on each other for this: an operator may only replace what
an operator key has put there, and a number that is opened again must leave room in
front of it. The invariant is `Sound`:

* the committed tokens are `Entered`,
* a number is typed only where no value is complete,
* the number being typed is nothing or a draft,
* the numbers among the tokens were `Written` by the calculator.

Each step of entry keeps it (`Sound.settle`, `Sound.beforeValue`, …), so each event does
(`Sound.apply`) and each run from a new calculator (`sound_run`).
-/

namespace PocketCalc

/-! ## The invariant -/

/-- Tokens, the latest first, whose numbers the calculator has written: a result may
stand at the beginning of the expression, and all other numbers were typed. -/
inductive Written (f : NumberFormat) : List Token → Prop
  | nil : Written f []
  | result (x : Float) : Decimal.isFinite x = true → Written f [.number (f.fit (f.round x))]
  | number {literal ts} : IsComplete literal → Written f ts → Written f (.number literal :: ts)
  | other {t ts} : (∀ literal, t ≠ .number literal) → Written f ts → Written f (t :: ts)

/-- What was written stays written when the latest token goes. -/
theorem Written.tail {f : NumberFormat} {t : Token} {ts : List Token}
    (h : Written f (t :: ts)) : Written f ts := by
  cases h with
  | result _ _ => exact .nil
  | number _ h => exact h
  | other _ h => exact h

/-- Every number that was written is a beginning of a number at least, and does not end
on a point. -/
theorem Written.exists_stage {f : NumberFormat} {ts : List Token} (h : Written f ts) :
    ∀ literal, .number literal ∈ ts → ∃ s, stage? literal = some s ∧ s ≠ .point := by
  induction h with
  | nil => simp
  | result x _ =>
      intro literal hl
      obtain rfl : literal = f.fit (f.round x) := by simpa using hl
      exact f.fit_stage (f.round x)
  | @number written ts hcomplete _ ih =>
      intro literal hl
      rcases List.mem_cons.mp hl with heq | hl
      · obtain rfl : literal = written := Token.number.inj heq
        obtain ⟨s, hs, hend⟩ := hcomplete
        exact ⟨s, hs, by rintro rfl; cases hend⟩
      · exact ih literal hl
  | other hne _ ih =>
      intro literal hl
      rcases List.mem_cons.mp hl with heq | hl
      · exact absurd heq.symm (hne literal)
      · exact ih literal hl

/-- A number that does not end on a digit is a result, and it stands at the beginning. -/
theorem Written.result_of_not_endsOnDigit {f : NumberFormat} {ts : List Token}
    (h : Written f ts) : ∀ literal, .number literal ∈ ts → ¬ EndsOnDigit literal →
      (∃ front, ts = front ++ [.number literal]) ∧
      ∃ x, Decimal.isFinite x = true ∧ literal = f.fit (f.round x) := by
  induction h with
  | nil => simp
  | result x hx =>
      intro literal hl _
      obtain rfl : literal = f.fit (f.round x) := by simpa using hl
      exact ⟨⟨[], rfl⟩, x, hx, rfl⟩
  | @number written ts hcomplete _ ih =>
      intro literal hl hend
      rcases List.mem_cons.mp hl with heq | hl
      · rw [Token.number.inj heq] at hend
        exact absurd hcomplete.getLast? hend
      · obtain ⟨⟨front, rfl⟩, hx⟩ := ih literal hl hend
        exact ⟨⟨.number written :: front, rfl⟩, hx⟩
  | @other t ts hne _ ih =>
      intro literal hl hend
      rcases List.mem_cons.mp hl with heq | hl
      · exact absurd heq.symm (hne literal)
      · obtain ⟨⟨front, rfl⟩, hx⟩ := ih literal hl hend
        exact ⟨⟨t :: front, rfl⟩, hx⟩

namespace Calculator

/-- What every state of a calculator has in common. -/
structure Sound (c : Calculator) : Prop where
  ordered : ∃ depth hasValue, Entered depth hasValue c.entered
  room : c.buffer ≠ [] → c.lastEndsValue = false
  editable : IsEditable c.buffer
  written : Written c.settings.format c.entered

variable {c : Calculator}

/-- The last token tells whether a value is complete. -/
theorem lastEndsValue_of_entered {d : Nat} {b : Bool} (h : Entered d b c.entered) :
    c.lastEndsValue = b := by
  unfold lastEndsValue
  cases hentered : c.entered with
  | nil =>
      rw [hentered] at h
      cases h
      rfl
  | cons t ts => exact h.headEndsValue t (by simp [hentered])

/-- A value is complete where one is being typed or behind the last token. -/
theorem hasValue_iff :
    c.hasValue = true ↔
      c.buffer ≠ [] ∨ ∃ t, c.tokens.getLast? = some t ∧ t.endsValue = true := by
  unfold hasValue lastEndsValue tokens
  cases hentered : c.entered with
  | nil => simp
  | cons t rest => simp

theorem Sound.entered (h : Sound c) : ∃ d, Entered d c.lastEndsValue c.entered := by
  obtain ⟨d, b, hd⟩ := h.ordered
  rw [lastEndsValue_of_entered hd]
  exact ⟨d, hd⟩

/-- Where nothing is being typed the committed tokens decide. -/
theorem Sound.of_entered {d : Nat} {b : Bool} (h : Entered d b c.entered)
    (hbuffer : c.buffer = []) (hwritten : Written c.settings.format c.entered) : Sound c where
  ordered := ⟨d, b, h⟩
  room hne := absurd hbuffer hne
  editable := .inl hbuffer
  written := hwritten

/-! ## Steps of entry -/

theorem Sound.startFresh (h : Sound c) : Sound c.startFresh := by
  unfold Calculator.startFresh
  split
  · exact .of_entered .start rfl .nil
  · exact h

theorem Sound.buildOn (h : Sound c) : Sound c.buildOn := by
  unfold Calculator.buildOn
  split
  · exact ⟨h.ordered, h.room, h.editable, h.written⟩
  · exact h

theorem startFresh_of_fresh (h : c.isResult = false) : c.startFresh = c := by
  simp [Calculator.startFresh, h]

theorem buildOn_entered (c : Calculator) : c.buildOn.entered = c.entered := by
  unfold buildOn
  split <;> rfl

theorem buildOn_buffer (c : Calculator) : c.buildOn.buffer = c.buffer := by
  unfold buildOn
  split <;> rfl

theorem commit_of_buffer (h : c.buffer = []) : c.commit = c := by
  have hnone : pendingNumber? c.buffer = none := by
    rw [h]
    rfl
  rw [commit, hnone, ← h]

theorem buffer_ne_nil {number : Token} (h : pendingNumber? c.buffer = some number) :
    c.buffer ≠ [] := by
  intro hnil
  rw [hnil] at h
  cases h

/-- Committing does nothing, or it puts a complete number behind tokens that lack a
value. -/
theorem Sound.commit_cases (h : Sound c) :
    (c.buffer = [] ∧ c.commit = c) ∨
    ∃ literal, pendingNumber? c.buffer = some (.number literal) ∧ IsComplete literal ∧
      c.lastEndsValue = false ∧
      c.commit = { c with entered := .number literal :: c.entered, buffer := [] } := by
  rcases h.editable with hnil | hdraft
  · left
    exact ⟨hnil, commit_of_buffer hnil⟩
  · right
    obtain ⟨literal, hpending, hcomplete⟩ := hdraft.pendingNumber?
    refine ⟨literal, hpending, hcomplete, h.room (buffer_ne_nil hpending), ?_⟩
    rw [Calculator.commit, hpending]

theorem commit_buffer (c : Calculator) : c.commit.buffer = [] := by
  unfold commit
  split <;> rfl

@[simp] theorem commit_settings (c : Calculator) : c.commit.settings = c.settings := by
  unfold commit
  split <;> rfl

/-- Committing brings the tokens of the expression together. -/
theorem commit_tokens (c : Calculator) : c.commit.tokens = c.expression := by
  unfold commit expression tokens
  split
  · next number hnumber => simp [hnumber]
  · next hnone => simp [hnone]

/-- Committing a number opens and closes nothing. -/
theorem parenBalance_commit (c : Calculator) :
    parenBalance c.commit.tokens = parenBalance c.tokens := by
  unfold commit pendingNumber?
  by_cases h : Decimal.dropFinalPoints c.buffer = [] ∨ Decimal.dropFinalPoints c.buffer = ['-']
  · simp [h, tokens]
  · simp [h, tokens, parenBalance_concat, depthAfter]

theorem parenBalance_settle (c : Calculator) :
    parenBalance c.settle.tokens = parenBalance c.tokens := by
  rw [settle, parenBalance_commit, tokens, buildOn_entered]
  rfl

theorem Sound.commit (h : Sound c) : Sound c.commit := by
  rcases h.commit_cases with ⟨_, heq⟩ | ⟨literal, _, hcomplete, hopen, heq⟩
  · rw [heq]
    exact h
  · obtain ⟨d, hd⟩ := h.entered
    rw [hopen] at hd
    rw [heq]
    exact .of_entered (hd.number literal) rfl (.number hcomplete h.written)

/-- Completing the expression gives a whole one, if anything is left of it. -/
theorem Sound.finalize_expression (h : Sound c) {ts : List Token}
    (hts : finalize c.expression = .ok ts) : Phrase .expression ts := by
  rw [← commit_tokens] at hts
  obtain ⟨_, _, hcommitted⟩ := h.commit.ordered
  exact hcommitted.finalize_expression hts

theorem Sound.settle (h : Sound c) : Sound c.settle :=
  h.buildOn.commit

theorem settle_buffer (c : Calculator) : c.settle.buffer = [] :=
  commit_buffer _

theorem settle_of_fresh (h : c.isResult = false) : c.settle = c.commit := by
  simp [Calculator.settle, Calculator.buildOn, h]

/-- Where everything is committed nothing changes when it is. -/
theorem settle_of_committed (hbuffer : c.buffer = []) (hfresh : c.isResult = false) :
    c.settle = c := by
  rw [settle_of_fresh hfresh, commit_of_buffer hbuffer]

/-- Behind the committed number a value is complete exactly if one was before. -/
theorem Sound.settle_lastEndsValue (h : Sound c) : c.settle.lastEndsValue = c.hasValue := by
  have hbuild : c.buildOn.hasValue = c.hasValue := by
    simp only [hasValue, lastEndsValue, buildOn_entered, buildOn_buffer]
  rw [Calculator.settle, ← hbuild]
  rcases h.buildOn.commit_cases with ⟨hnil, heq⟩ | ⟨literal, hpending, _, _, heq⟩
  · rw [heq]
    simp [hasValue, hnil]
  · have hne := buffer_ne_nil hpending
    rw [heq]
    simp [hasValue, lastEndsValue, Token.endsValue, hne]

/-- An operator may follow a complete value. -/
theorem Sound.push_operator (h : Sound c) (hbuffer : c.buffer = [])
    (hvalue : c.lastEndsValue = true) (op : Operator) : Sound (c.push (.operator op)) := by
  obtain ⟨d, hd⟩ := h.entered
  rw [hvalue] at hd
  exact .of_entered (hd.operator op) hbuffer (.other (by simp) h.written)

theorem Sound.implicitMultiply (h : Sound c) (hbuffer : c.buffer = []) :
    Sound c.implicitMultiply ∧ c.implicitMultiply.lastEndsValue = false ∧
      c.implicitMultiply.buffer = [] := by
  unfold Calculator.implicitMultiply
  by_cases hvalue : c.lastEndsValue = true
  · rw [if_pos hvalue]
    exact ⟨h.push_operator hbuffer hvalue .multiply, rfl, hbuffer⟩
  · rw [if_neg hvalue]
    exact ⟨h, by simpa using hvalue, hbuffer⟩

/-- Everything is committed, and a value may follow. -/
theorem Sound.beforeValue (h : Sound c) :
    (∃ d, Entered d false c.beforeValue.entered) ∧ c.beforeValue.buffer = [] ∧
      Written c.beforeValue.settings.format c.beforeValue.entered := by
  obtain ⟨hsound, hopen, hbuffer⟩ := h.settle.implicitMultiply (settle_buffer c)
  obtain ⟨d, hd⟩ := hsound.entered
  rw [hopen] at hd
  exact ⟨⟨d, hd⟩, hbuffer, hsound.written⟩

/-- A number may be begun or continued. -/
theorem Sound.beforeNumber (h : Sound c) :
    Sound c.beforeNumber ∧ c.beforeNumber.lastEndsValue = false ∧
      c.beforeNumber.buffer = c.buffer := by
  unfold Calculator.beforeNumber
  by_cases hbuffer : c.buffer = []
  · obtain ⟨hsound, hopen, hnil⟩ := h.implicitMultiply hbuffer
    rw [if_pos (by simp [hbuffer])]
    exact ⟨hsound, hopen, by rw [hnil, hbuffer]⟩
  · rw [if_neg (by simp [hbuffer])]
    exact ⟨h, h.room hbuffer, rfl⟩

/-- Characters are typed where they leave a draft. -/
theorem Sound.type (h : Sound c) (hopen : c.lastEndsValue = false) {chars : List Char}
    (hdraft : IsDraft (c.buffer ++ chars)) : Sound (c.type chars) where
  ordered := h.ordered
  room _ := hopen
  editable := .inr hdraft
  written := h.written

/-! ## Events -/

theorem Sound.digit (h : Sound c) (d : Decimal.Digit) : Sound (c.digit d).2 := by
  unfold Calculator.digit
  simp only
  split
  · exact h
  · obtain ⟨hsound, hopen, hbuffer⟩ := h.startFresh.beforeNumber
    apply hsound.type hopen
    rw [hbuffer]
    rcases h.startFresh.editable with hnil | hdraft
    · rw [hnil]
      exact (isComplete_digit (isDigit_toChar d)).isDraft
    · exact (hdraft.concat_digit (isDigit_toChar d)).isDraft

theorem Sound.decimalPoint (h : Sound c) : Sound c.decimalPoint.2 := by
  unfold Calculator.decimalPoint
  split
  · exact h
  · next hguard =>
    have hfresh := h.startFresh
    simp only
    split
    · next hempty =>
      obtain ⟨hsound, hopen, hbuffer⟩ := hfresh.beforeNumber
      apply hsound.type hopen
      rw [hbuffer, List.isEmpty_iff.mp hempty]
      exact ⟨.point, rfl, rfl⟩
    · next hne =>
      have hbuffer : c.startFresh.buffer ≠ [] := by simpa using hne
      apply hfresh.type (hfresh.room hbuffer)
      -- a result has been cleared away, so that the guard is about this buffer
      have hresult : c.isResult = false := by
        cases hflag : c.isResult with
        | false => rfl
        | true => simp [Calculator.startFresh, hflag] at hbuffer
      have hdraft := hfresh.editable.resolve_left hbuffer
      rw [startFresh_of_fresh hresult] at hdraft ⊢
      simp only [hresult, Bool.not_false, Bool.true_and, Bool.or_eq_true, not_or,
        List.contains_iff_mem] at hguard
      exact hdraft.concat_point hguard.1 hguard.2

theorem Sound.power (h : Sound c) : Sound c.power.2 := by
  unfold Calculator.power
  split
  · next hvalue =>
    exact h.settle.push_operator (settle_buffer c) (h.settle_lastEndsValue.trans hvalue) .power
  · exact h

theorem Sound.powerOfTwo (h : Sound c) : Sound c.powerOfTwo.2 := by
  unfold Calculator.powerOfTwo
  split
  · next hvalue =>
    have hpower := h.settle.push_operator (settle_buffer c)
      (h.settle_lastEndsValue.trans hvalue) .power
    obtain ⟨d, hd⟩ := hpower.entered
    exact .of_entered (hd.number ['2']) (settle_buffer c)
      (.number (isComplete_digit rfl) hpower.written)
  · exact h

/-- An operator key leaves the tokens sound where no group has just been opened. -/
theorem Sound.putOperator (h : Sound c) (hbuffer : c.buffer = [])
    (hgroup : ∀ t ∈ c.entered.head?, t.isOpenParen = false) (op : Operator) :
    Sound (c.putOperator op) := by
  obtain ⟨d, b, hd⟩ := h.ordered
  have hwritten := h.written
  unfold Calculator.putOperator
  split
  · next old rest hentered =>
    -- what is in front of the old operator suits the new one as well
    rw [hentered] at hd hwritten
    cases hd with
    | operator _ hrest =>
        exact .of_entered (hrest.operator op) hbuffer (.other (by simp) hwritten.tail)
  · have hzero : Entered 0 false [.operator op, .number ['0']] :=
      (Entered.start.number ['0']).operator op
    exact .of_entered hzero hbuffer
      (.other (by simp) (.number (isComplete_digit rfl) .nil))
  · next hoperator hempty =>
    -- neither an operator nor a paren nor a function, so that a value is complete
    have hvalue : c.lastEndsValue = true := by
      cases hentered : c.entered with
      | nil => exact absurd hentered hempty
      | cons t ts =>
          have hparen := hgroup t (by simp [hentered])
          rw [hentered] at hd
          cases t with
          | operator old => exact absurd hentered (hoperator old ts)
          | function f => cases hd
          | openParen => cases hparen
          | _ => simp [lastEndsValue, hentered, Token.endsValue]
    exact h.push_operator hbuffer hvalue op

theorem Sound.operator (h : Sound c) (op : Operator) : Sound (c.operator op).2 := by
  unfold Calculator.operator
  split
  · exact h.power
  · split
    · exact h
    · next hstart =>
      apply h.settle.putOperator (settle_buffer c)
      intro t ht
      -- an open paren is the latest token only if nothing has been typed behind it
      rcases h.buildOn.commit_cases with ⟨hnil, heq⟩ | ⟨literal, _, _, _, heq⟩
      · rw [Calculator.settle, heq, buildOn_entered] at ht
        rw [buildOn_buffer] at hnil
        cases hentered : c.entered with
        | nil => simp [hentered] at ht
        | cons s ts =>
            obtain rfl : s = t := by simpa [hentered] using ht
            have hneither : s.isOpenParen = false ∧ s.isFunction = false := by
              simpa [atGroupStart, hnil, hentered] using hstart
            exact hneither.1
      · rw [Calculator.settle, heq] at ht
        obtain rfl : Token.number literal = t := by simpa using ht
        rfl

theorem Sound.exponential (h : Sound c) : Sound c.exponential.2 := by
  obtain ⟨⟨d, hd⟩, hbuffer, hwritten⟩ := h.beforeValue
  exact .of_entered ((hd.constant .e).operator .power) hbuffer
    (.other (by simp) (.other (by simp) hwritten))

theorem Sound.function (h : Sound c) (f : Func) : Sound (c.function f).2 := by
  obtain ⟨⟨d, hd⟩, hbuffer, hwritten⟩ := h.beforeValue
  exact .of_entered (hd.function f) hbuffer (.other (by simp) (.other (by simp) hwritten))

theorem Sound.constant (h : Sound c) (k : Constant) : Sound (c.constant k).2 := by
  obtain ⟨⟨d, hd⟩, hbuffer, hwritten⟩ := h.beforeValue
  exact .of_entered (hd.constant k) hbuffer (.other (by simp) hwritten)

theorem Sound.openParen (h : Sound c) : Sound c.openParen.2 := by
  obtain ⟨⟨d, hd⟩, hbuffer, hwritten⟩ := h.beforeValue
  exact .of_entered hd.openParen hbuffer (.other (by simp) hwritten)

theorem Sound.closeParen (h : Sound c) : Sound c.closeParen.2 := by
  unfold Calculator.closeParen
  split
  · next hclose =>
    obtain ⟨hdepth, hvalue⟩ : 0 < parenBalance c.tokens ∧ c.hasValue = true := by
      simpa [canClose] using hclose
    have hsettle := h.settle
    obtain ⟨d, hd⟩ := hsettle.entered
    rw [h.settle_lastEndsValue, hvalue] at hd
    have hbalance : parenBalance c.settle.tokens = d := hd.parenBalance
    rw [parenBalance_settle] at hbalance
    obtain ⟨d, rfl⟩ := Nat.exists_eq_add_one.mpr (hbalance ▸ hdepth)
    exact .of_entered hd.closeParen (settle_buffer c) (.other (by simp) hsettle.written)
  · exact h

theorem Sound.openOrCloseParen (h : Sound c) : Sound c.openOrCloseParen.2 := by
  unfold Calculator.openOrCloseParen
  split
  · exact h.closeParen
  · exact h.openParen

/-- Without its last token what was entered is in order again, a function going with
its paren. -/
theorem Sound.backspace (h : Sound c) : Sound c.backspace.2 := by
  obtain ⟨d, b, hd⟩ := h.ordered
  have hwritten := h.written
  unfold Calculator.backspace
  split
  · exact h
  · split
    · next hne =>
      have hbuffer : c.buffer ≠ [] := by simpa using hne
      obtain ⟨s, hs⟩ := h.editable.exists_stage
      exact ⟨h.ordered, fun _ => h.room hbuffer, erase_stage hs, hwritten⟩
    · next hempty =>
      have hbuffer : c.buffer = [] := by simpa using hempty
      split
      · exact h
      · next f rest hentered =>
        rw [hentered] at hd hwritten
        cases hd with
        | function _ hrest => exact .of_entered hrest hbuffer hwritten.tail.tail
        | openParen hrest =>
            -- a function is never entered without its paren
            cases hrest
      · next literal rest hentered =>
        rw [hentered] at hd hwritten
        cases hd with
        | number _ hrest =>
            -- the literal may be a cut result, of which erasing still leaves a draft
            obtain ⟨s, hs, _⟩ := hwritten.exists_stage literal (by simp)
            have hopen : lastEndsValue { c with
                entered := rest
                buffer := cutToLimit c.settings.digitLimit (erase literal) } = false :=
              lastEndsValue_of_entered hrest
            exact ⟨⟨_, _, hrest⟩, fun _ => hopen, (erase_stage hs).cutToLimit _, hwritten.tail⟩
      · next t rest hfunction hnumber hentered =>
        rw [hentered] at hd hwritten
        cases hd with
        | number literal _ => exact absurd rfl (hnumber literal)
        | constant _ hrest => exact .of_entered hrest hbuffer hwritten.tail
        | operator _ hrest => exact .of_entered hrest hbuffer hwritten.tail
        | openParen hrest => exact .of_entered hrest hbuffer hwritten.tail
        | @function _ ts f _ => exact (hfunction f ts rfl rfl).elim
        | closeParen hrest => exact .of_entered hrest hbuffer hwritten.tail

theorem Sound.equals (h : Sound c) : Sound c.equals.2 := by
  unfold Calculator.equals
  simp only
  split
  · next result hresult =>
    obtain ⟨hfinite, hdisplay⟩ := display_of_evaluateTokens hresult
    refine .of_entered (Entered.start.number result.display) rfl ?_
    rw [hdisplay]
    exact .result result.value hfinite
  · split
    · exact .of_entered .start rfl .nil
    · exact h

/-- **One event keeps a state sound.** -/
theorem Sound.apply (h : Sound c) (e : Event) : Sound (c.apply e).2 := by
  cases e with
  | digit d =>
      rw [Calculator.apply]
      split
      · exact h.digit _
      · exact h
  | decimalPoint => exact h.decimalPoint
  | operator op => exact h.operator op
  | function f => exact h.function f
  | constant k => exact h.constant k
  | openOrCloseParen => exact h.openOrCloseParen
  | openParen => exact h.openParen
  | closeParen => exact h.closeParen
  | power => exact h.power
  | powerOfTwo => exact h.powerOfTwo
  | exponential => exact h.exponential
  | backspace => exact h.backspace
  | clear => exact .of_entered .start rfl .nil
  | equals => exact h.equals
  | toggleAngleUnit =>
      rw [Calculator.apply, Calculator.toggleAngleUnit]
      split
      · exact ⟨h.ordered, h.room, h.editable, h.written⟩
      · exact h

/-! ## Runs -/

theorem Sound.run (h : Sound c) (events : List Event) : Sound (c.run events) := by
  induction events generalizing c with
  | nil => exact h
  | cons e events ih => exact ih (h.apply e)

/-- **Every state that a new calculator can reach is sound.** -/
theorem sound_run (settings : Settings) (events : List Event) :
    Sound ((new settings).run events) := by
  have hnew : Sound (new settings) := .of_entered .start rfl .nil
  exact hnew.run events

/-- **Entry is in order in every reachable state.** The committed tokens obey the rules
for a beginning of an infix expression. Where a number is being typed no value is
complete, and what has been typed spells a number. So whatever completing the
expression gives is a whole expression. -/
theorem entry_in_order (settings : Settings) (events : List Event) :
    InfixPrefix ((new settings).run events).tokens ∧
      (((new settings).run events).buffer ≠ [] →
        (∀ t ∈ ((new settings).run events).tokens.getLast?, t.endsValue = false) ∧
        ∃ literal, pendingNumber? ((new settings).run events).buffer = some (.number literal)) ∧
      ∀ ts, finalize ((new settings).run events).expression = .ok ts →
        Phrase .expression ts := by
  have h := sound_run settings events
  generalize (new settings).run events = c at h
  obtain ⟨d, hd⟩ := h.entered
  refine ⟨hd.isInfixPrefix, ?_, ?_⟩
  · intro hbuffer
    refine ⟨?_, ?_⟩
    · intro t ht
      rw [h.room hbuffer] at hd
      exact hd.headEndsValue t (by simpa [tokens] using ht)
    · obtain ⟨literal, hpending, _⟩ := (h.editable.resolve_left hbuffer).pendingNumber?
      exact ⟨literal, hpending⟩
  · intro ts hts
    exact h.finalize_expression hts

end Calculator

end PocketCalc
