import PocketCalc.Proofs.EntryOrder

/-!
# Operator keys

An operator goes behind a complete value, replaces an operator that stands there already, gets a
zero in front where nothing has been entered, and is ignored where a group has just been opened.
The key `^` goes behind a complete value and is ignored everywhere else.

* `operator_of_hasValue` — behind a complete value all operators are alike.
* `Sound.operator_cases` — anywhere, an operator is ignored or put behind what is committed.
* `Sound.operator_operator` — of two operators the second counts.
* `last_operator_counts` — **so does the last of any number of operators.**
-/

namespace PocketCalc

namespace Calculator

variable {c : Calculator}

/-! ## Behind a complete value -/

/-- Where a value is complete no group has just been opened. -/
theorem atGroupStart_of_hasValue (h : c.hasValue = true) : c.atGroupStart = false := by
  unfold hasValue lastEndsValue at h
  unfold atGroupStart
  cases hentered : c.entered with
  | nil => simp
  | cons t rest =>
      rw [hentered] at h
      cases t <;> simp_all [Token.endsValue, Token.isOpenParen, Token.isFunction]

/-- Behind a token that ends a value there is no operator to replace. -/
theorem putOperator_of_endsValue (h : c.lastEndsValue = true) (op : Operator) :
    c.putOperator op = c.push (.operator op) := by
  unfold lastEndsValue at h
  unfold putOperator
  split
  · next old rest hentered =>
    rw [hentered] at h
    cases h
  · next hentered =>
    rw [hentered] at h
    cases h
  · rfl

/-- **Behind a complete value an operator is put on**, `^` like all others. -/
theorem operator_of_hasValue (h : c.hasValue = true) (hends : c.settle.lastEndsValue = true)
    (op : Operator) : c.operator op = (.updated, c.settle.push (.operator op)) := by
  unfold Calculator.operator
  split
  · next hop => rw [Calculator.power, if_pos h, hop]
  · rw [if_neg (by simp [atGroupStart_of_hasValue h]), putOperator_of_endsValue hends]

/-! ## Anywhere -/

theorem settle_isResult (c : Calculator) : c.settle.isResult = false := by
  obtain ⟨ts, hts⟩ := c.settle_eq
  rw [hts, buildOn_eq]

/-- **An operator is ignored or put behind what is committed.** It is ignored only where a group
has just been opened, unless it is `^`. -/
theorem Sound.operator_cases (h : Sound c) (op : Operator) :
    (c.operator op = (.ignored, c) ∧ (op ≠ .power → c.atGroupStart = true)) ∨
    (c.operator op = (.updated, c.settle.putOperator op) ∧ c.atGroupStart = false) := by
  by_cases hvalue : c.hasValue = true
  · right
    have hends := h.settle_lastEndsValue.trans hvalue
    refine ⟨?_, atGroupStart_of_hasValue hvalue⟩
    rw [operator_of_hasValue hvalue hends, putOperator_of_endsValue hends]
  · unfold Calculator.operator
    by_cases hop : op = .power
    · left
      rw [if_pos hop, Calculator.power, if_neg hvalue]
      exact ⟨rfl, absurd hop⟩
    · rw [if_neg hop]
      cases hstart : c.atGroupStart with
      | true => exact .inl ⟨rfl, fun _ => rfl⟩
      | false => exact .inr ⟨rfl, rfl⟩

/-- The operator that was put on last is the one that is replaced. -/
theorem putOperator_putOperator (c : Calculator) (first op : Operator) :
    (c.putOperator first).putOperator op = c.putOperator op := by
  cases hentered : c.entered with
  | nil => simp [Calculator.putOperator, hentered]
  | cons t rest => cases t <;> simp [Calculator.putOperator, hentered]

theorem putOperator_atGroupStart (c : Calculator) (op : Operator) :
    (c.putOperator op).atGroupStart = false := by
  unfold Calculator.putOperator atGroupStart
  split <;> simp [Token.isOpenParen, Token.isFunction]

/-- There is nothing to commit behind an operator that was just put on. -/
theorem settle_putOperator (c : Calculator) (op : Operator) :
    (c.settle.putOperator op).settle = c.settle.putOperator op := by
  obtain ⟨ts, hts⟩ := c.settle.putOperator_eq op
  have hfresh : (c.settle.putOperator op).isResult = false := by
    rw [hts]
    exact c.settle_isResult
  have hbuffer : (c.settle.putOperator op).buffer = [] := by
    rw [hts]
    exact c.settle_buffer
  exact settle_of_committed hbuffer hfresh

/-! ## One operator behind another -/

/-- **Of two operators the second counts**, if it is not `^`: the first has been ignored, or it
is replaced. -/
theorem Sound.operator_operator (h : Sound c) (first : Operator) {op : Operator}
    (hop : op ≠ .power) : (c.operator first).2.operator op = c.operator op := by
  rcases h.operator_cases first with ⟨heq, _⟩ | ⟨heq, hstart⟩
  · rw [heq]
  · have halone : c.operator op = (.updated, c.settle.putOperator op) := by
      rw [Calculator.operator, if_neg hop, if_neg (by simp [hstart])]
    rw [heq, halone, Calculator.operator, if_neg hop,
      if_neg (by simp [putOperator_atGroupStart]), settle_putOperator, putOperator_putOperator]

/-- Operators pressed before have no part in what the last one does. -/
theorem Sound.operator_run (h : Sound c) (ops : List Operator) {op : Operator}
    (hop : op ≠ .power) : (c.run (ops.map .operator)).operator op = c.operator op := by
  induction ops generalizing c with
  | nil => rfl
  | cons first ops ih =>
      show ((c.operator first).2.run (ops.map .operator)).operator op = _
      rw [ih (h.operator first), h.operator_operator first hop]

/-- **The last operator counts.** In every reachable state, however many operators are pressed
one behind the other, powers among them: if the last is not `^` they leave the state that the
last one leaves alone, and it reports the same. -/
theorem last_operator_counts (settings : Settings) (before : List Event) (ops : List Operator)
    {last : Operator} (hlast : last ≠ .power) :
    let s := (new settings).run before
    s.run ((ops ++ [last]).map .operator) = s.run [.operator last] ∧
      ((s.run (ops.map .operator)).apply (.operator last)).1 = (s.apply (.operator last)).1 := by
  intro s
  have hsound : Sound s := sound_run settings before
  have hsame : (s.run (ops.map .operator)).operator last = s.operator last :=
    hsound.operator_run ops hlast
  refine ⟨?_, congrArg Prod.fst hsame⟩
  rw [List.map_append, run_append]
  exact congrArg Prod.snd hsame

/-- It applies behind the error of `1÷0`, behind a paren and behind a number. -/
theorem last_operator_counts_anywhere :
    Operator.subtract ≠ .power ∧
      ∀ before ∈ [[.digit 1, .operator .divide, .digit 0, .equals], [.openParen], [.digit 5]],
        let s := (new {}).run before
        s.run [.operator .power, .operator .add, .operator .power, .operator .subtract] =
          s.run [.operator .subtract] := by
  have hlast : Operator.subtract ≠ .power := nofun
  refine ⟨hlast, ?_⟩
  intro before _
  exact (last_operator_counts {} before [.power, .add, .power] hlast).1

end Calculator

end PocketCalc
