import PocketCalc.Proofs.ExpressionValue
import PocketCalc.Proofs.ResultText

/-!
# What an event does

Fifteen keys do one of seven things (`Effect`): a key is ignored or refused, edits the
entry, clears it, shows a result or an error, or toggles the unit of angles. An edit takes the
flags of a result off and changes nothing else but tokens and buffer, so that an invariant
needs one case for all the keys of entry.

* `apply_effect` — every event has one of these effects.
* `refused_unchanged` — **no event is half applied**, and when a digit is refused.
* `run_induction` — what every effect keeps holds in every state of a run; the settings are
  kept for one (`run_settings`).
-/

namespace PocketCalc

namespace Calculator

/-- What an event can do to a state, and the outcome it reports. -/
inductive Effect (c : Calculator) : Event → Outcome → Calculator → Prop
  | ignore {e} : Effect c e .ignored c
  /-- The number being typed has all its digits. -/
  | reject {d : UInt8} : d.toNat < 10 → c.settings.digitLimit ≤ digitCount c.openNumber →
      Effect c (.digit d) (.rejected (.digitLimitExceeded c.settings.digitLimit)) c
  /-- Tokens and buffer change, and a result is only entry from now on. No digit goes
  beyond the limit, save the zero in front of a point. -/
  | edit {e entered buffer} :
      digitCount buffer ≤ max (digitCount c.buffer) (max 1 c.settings.digitLimit) →
      Effect c e .updated { c with
        entered := entered, buffer := buffer, isResult := false,
        isError := c.isError && !c.isResult }
  | clear : Effect c .clear .updated { c with
      entered := [], buffer := [], isResult := false, isError := false, preview := none }
  | result {r preview} : evaluateTokens c.angleUnit c.settings.format c.expression = .ok r →
      Effect c .equals (.evaluated r.display) { c with
        entered := [.number r.display], buffer := [], isResult := true, isError := false,
        preview := some preview }
  | error {preview} : Effect c .equals (.evaluated errorText) { c with
        entered := [], buffer := [], isResult := true, isError := true, preview := some preview }
  | toggle : Effect c .toggleAngleUnit .updated { c with angleUnit := c.angleUnit.toggled }

/-! ## Steps of entry -/

variable (c : Calculator)

theorem buildOn_eq :
    c.buildOn = { c with isResult := false, isError := c.isError && !c.isResult } := by
  unfold buildOn
  split
  · next h => simp [h]
  · next h =>
    cases c
    simp_all

/-- Typing a number after a result takes it off the display with its flags. -/
theorem startFresh_eq :
    ∃ ts, c.startFresh = { c.buildOn with entered := ts, buffer := c.openNumber } := by
  unfold startFresh buildOn openNumber
  split
  · exact ⟨[], rfl⟩
  · exact ⟨c.entered, rfl⟩

theorem commit_eq : ∃ ts, c.commit = { c with entered := ts, buffer := [] } := by
  unfold commit
  split
  · exact ⟨_, rfl⟩
  · exact ⟨_, rfl⟩

theorem settle_eq : ∃ ts, c.settle = { c.buildOn with entered := ts, buffer := [] } :=
  c.buildOn.commit_eq

theorem implicitMultiply_eq : ∃ ts, c.implicitMultiply = { c with entered := ts } := by
  unfold implicitMultiply
  split
  · exact ⟨_, rfl⟩
  · exact ⟨_, rfl⟩

theorem beforeNumber_eq : ∃ ts, c.beforeNumber = { c with entered := ts } := by
  unfold beforeNumber
  split
  · exact c.implicitMultiply_eq
  · exact ⟨_, rfl⟩

theorem beforeValue_eq : ∃ ts, c.beforeValue = { c.buildOn with entered := ts, buffer := [] } := by
  obtain ⟨ts, hts⟩ := c.settle.implicitMultiply_eq
  obtain ⟨us, hus⟩ := c.settle_eq
  exact ⟨ts, by rw [beforeValue, hts, hus]⟩

theorem putOperator_eq (op : Operator) : ∃ ts, c.putOperator op = { c with entered := ts } := by
  unfold putOperator
  split
  · exact ⟨_, rfl⟩
  · exact ⟨_, rfl⟩
  · exact ⟨_, rfl⟩

variable {c} {e : Event}

/-- The number being typed has no more digits than the buffer. -/
theorem digitCount_openNumber_le : digitCount c.openNumber ≤ digitCount c.buffer := by
  unfold openNumber
  split
  · exact Nat.zero_le _
  · exact Nat.le_refl _

/-- Entry on top of a result is an edit. -/
theorem Effect.entry {entered : List Token} {buffer : List Char}
    (h : digitCount buffer ≤ max (digitCount c.buffer) (max 1 c.settings.digitLimit)) :
    Effect c e .updated { c.buildOn with entered := entered, buffer := buffer } := by
  rw [buildOn_eq]
  exact .edit h

/-- Characters that are typed are an edit. -/
theorem Effect.type {chars : List Char}
    (h : digitCount (c.openNumber ++ chars) ≤
      max (digitCount c.buffer) (max 1 c.settings.digitLimit)) :
    Effect c e .updated (c.startFresh.beforeNumber.type chars) := by
  obtain ⟨ts, hts⟩ := c.startFresh.beforeNumber_eq
  obtain ⟨us, hus⟩ := c.startFresh_eq
  rw [hts, hus]
  exact .entry h

/-! ## Events -/

theorem digitCount_append (as bs : List Char) :
    digitCount (as ++ bs) = digitCount as + digitCount bs :=
  List.countP_append

theorem effect_digit {d : UInt8} (h : d.toNat < 10) :
    Effect c (.digit d) (c.digit ⟨d.toNat, h⟩).1 (c.digit ⟨d.toNat, h⟩).2 := by
  unfold digit
  simp only
  split
  · next hlimit => exact .reject h hlimit
  · next hlimit =>
    refine .type ?_
    have hone : digitCount [Decimal.Digit.toChar ⟨d.toNat, h⟩] = 1 := by
      simp [digitCount, isDigit_toChar]
    rw [digitCount_append, hone]
    omega

theorem effect_decimalPoint : Effect c e c.decimalPoint.1 c.decimalPoint.2 := by
  unfold decimalPoint
  split
  · exact .ignore
  · obtain ⟨ts, hfresh⟩ := c.startFresh_eq
    have hbuffer : c.startFresh.buffer = c.openNumber := by rw [hfresh]
    simp only
    split
    · next hempty =>
      have hnil : c.openNumber = [] := by rw [← hbuffer]; exact List.isEmpty_iff.mp hempty
      refine .type ?_
      rw [hnil]
      show 1 ≤ _
      omega
    · -- a point behind digits adds none
      have hle : digitCount (c.openNumber ++ ['.']) ≤ digitCount c.buffer := by
        rw [digitCount_append]
        exact c.digitCount_openNumber_le
      rw [hfresh]
      exact .entry (Nat.le_trans hle (Nat.le_max_left _ _))

theorem effect_power : Effect c e c.power.1 c.power.2 := by
  unfold power
  split
  · obtain ⟨ts, hsettle⟩ := c.settle_eq
    rw [hsettle]
    exact .entry (Nat.zero_le _)
  · exact .ignore

theorem effect_powerOfTwo : Effect c e c.powerOfTwo.1 c.powerOfTwo.2 := by
  unfold powerOfTwo
  split
  · obtain ⟨ts, hsettle⟩ := c.settle_eq
    rw [hsettle]
    exact .entry (Nat.zero_le _)
  · exact .ignore

theorem effect_operator (op : Operator) : Effect c e (c.operator op).1 (c.operator op).2 := by
  unfold operator
  split
  · exact effect_power
  · split
    · exact .ignore
    · obtain ⟨ts, hsettle⟩ := c.settle_eq
      obtain ⟨us, hput⟩ := c.settle.putOperator_eq op
      rw [hput, hsettle]
      exact .entry (Nat.zero_le _)

/-- Tokens on top of what is ready for a value are an edit. -/
theorem effect_beforeValue (ts : List Token) :
    Effect c e .updated { c.beforeValue with entered := ts } := by
  obtain ⟨us, hbefore⟩ := c.beforeValue_eq
  rw [hbefore]
  exact .entry (Nat.zero_le _)

theorem effect_closeParen : Effect c e c.closeParen.1 c.closeParen.2 := by
  unfold closeParen
  split
  · obtain ⟨ts, hsettle⟩ := c.settle_eq
    rw [hsettle]
    exact .entry (Nat.zero_le _)
  · exact .ignore

theorem effect_openOrCloseParen : Effect c e c.openOrCloseParen.1 c.openOrCloseParen.2 := by
  unfold openOrCloseParen
  split
  · exact effect_closeParen
  · exact effect_beforeValue _

/-! ## Erasing -/

theorem dropLastAfter_isPrefix (tail text : List Char) : dropLastAfter tail text <+: text := by
  unfold dropLastAfter
  split
  · exact List.dropLast_prefix text
  · exact List.prefix_refl text

theorem repair_isPrefix (text : List Char) : repair text <+: text := by
  simp only [repair]
  split
  · exact List.nil_prefix
  · exact ((dropLastAfter_isPrefix _ _).trans (dropLastAfter_isPrefix _ _)).trans
      (dropLastAfter_isPrefix _ _)

theorem erase_isPrefix (text : List Char) : erase text <+: text :=
  (repair_isPrefix _).trans (List.dropLast_prefix text)

/-- Erasing adds no digit. -/
theorem digitCount_erase_le (text : List Char) : digitCount (erase text) ≤ digitCount text :=
  (erase_isPrefix text).sublist.countP_le

theorem digitCount_cutToLimit_le (limit : Nat) (text : List Char) :
    digitCount (cutToLimit limit text) ≤ limit := by
  fun_induction cutToLimit limit text with
  | case1 text _ ih => exact ih
  | case2 text h => exact Nat.le_of_not_lt h

theorem effect_backspace : Effect c e c.backspace.1 c.backspace.2 := by
  unfold backspace
  split
  · exact .ignore
  · next hresult =>
    -- no result is shown, so that there are no flags to take off
    have hsame : c.buildOn = c := by simp [buildOn, hresult]
    have hedit : ∀ {ts : List Token} {text : List Char},
        digitCount text ≤ max (digitCount c.buffer) c.settings.digitLimit →
        Effect c e .updated { c with entered := ts, buffer := text } := by
      intro ts text hcount
      have hentry : Effect c e .updated { c.buildOn with entered := ts, buffer := text } :=
        .entry (by omega)
      rwa [hsame] at hentry
    split
    · have := digitCount_erase_le c.buffer
      exact hedit (by omega)
    · split
      · exact .ignore
      · exact hedit (by omega)
      · next literal _ _ =>
        have := digitCount_cutToLimit_le c.settings.digitLimit (erase literal)
        exact hedit (by omega)
      · exact hedit (by omega)

theorem effect_equals : Effect c .equals c.equals.1 c.equals.2 := by
  unfold equals
  simp only
  split
  · next r hr => exact .result hr
  · split
    · exact .error
    · exact .ignore

theorem effect_toggleAngleUnit :
    Effect c .toggleAngleUnit c.toggleAngleUnit.1 c.toggleAngleUnit.2 := by
  unfold toggleAngleUnit
  split
  · exact .toggle
  · exact .ignore

/-- **Every event has one of the effects.** -/
theorem apply_effect (c : Calculator) (e : Event) : Effect c e (c.apply e).1 (c.apply e).2 := by
  cases e with
  | digit d =>
      rw [apply]
      split
      · next h => exact effect_digit h
      · exact .ignore
  | decimalPoint => exact effect_decimalPoint
  | operator op => exact effect_operator op
  | function f => exact effect_beforeValue _
  | constant k => exact effect_beforeValue _
  | openOrCloseParen => exact effect_openOrCloseParen
  | openParen => exact effect_beforeValue _
  | closeParen => exact effect_closeParen
  | power => exact effect_power
  | powerOfTwo => exact effect_powerOfTwo
  | exponential => exact effect_beforeValue _
  | backspace => exact effect_backspace
  | clear => exact .clear
  | equals => exact effect_equals
  | toggleAngleUnit => exact effect_toggleAngleUnit

/-! ## Refusals -/

/-- An event that reports no change makes none. -/
theorem Effect.unchanged {o : Outcome} {c' : Calculator} (h : Effect c e o c')
    (ho : o.changed = false) : c' = c := by
  cases h with
  | ignore => rfl
  | reject _ _ => rfl
  | edit _ => cases ho
  | clear => cases ho
  | result _ => cases ho
  | error => cases ho
  | toggle => cases ho

/-- Only a digit is refused, and only where the number being typed is full. -/
theorem Effect.of_rejected {reason : CalcError} {c' : Calculator}
    (h : Effect c e (.rejected reason) c') :
    ∃ d : UInt8, e = .digit d ∧ d.toNat < 10 ∧
      c.settings.digitLimit ≤ digitCount c.openNumber ∧
      reason = .digitLimitExceeded c.settings.digitLimit := by
  cases h with
  | @reject d hd hfull => exact ⟨d, rfl, hd, hfull, rfl⟩

/-- A digit is refused where the number being typed is full. -/
theorem apply_digit_of_full {d : UInt8} (hd : d.toNat < 10)
    (hfull : c.settings.digitLimit ≤ digitCount c.openNumber) :
    (c.apply (.digit d)).1 = .rejected (.digitLimitExceeded c.settings.digitLimit) := by
  rw [apply, dif_pos hd]
  simp only [digit]
  rw [if_pos hfull]

/-- **No event is half applied.** An event that is ignored or refused leaves every field of
the state as it was, whatever the state. Only a digit is refused: exactly where the number
being typed, which is none behind a result, has as many digits as the limit allows, and the
refusal names the limit. -/
theorem refused_unchanged (c : Calculator) (e : Event) :
    ((c.apply e).1 = .ignored → (c.apply e).2 = c) ∧
      (∀ reason, (c.apply e).1 = .rejected reason → (c.apply e).2 = c) ∧
      ∀ reason, (c.apply e).1 = .rejected reason ↔
        ∃ d : UInt8, e = .digit d ∧ d.toNat < 10 ∧
          c.settings.digitLimit ≤ digitCount (if c.isResult then [] else c.buffer) ∧
          reason = .digitLimitExceeded c.settings.digitLimit := by
  have heffect := c.apply_effect e
  refine ⟨?_, ?_, ?_⟩
  · intro hignored
    exact heffect.unchanged (by rw [hignored]; rfl)
  · intro reason hrejected
    exact heffect.unchanged (by rw [hrejected]; rfl)
  · intro reason
    constructor
    · intro hrejected
      rw [hrejected] at heffect
      exact heffect.of_rejected
    · rintro ⟨d, rfl, hd, hfull, rfl⟩
      exact apply_digit_of_full hd hfull

/-! ## Runs -/

theorem run_cons (c : Calculator) (e : Event) (events : List Event) :
    c.run (e :: events) = (c.apply e).2.run events :=
  rfl

theorem run_append (c : Calculator) (front later : List Event) :
    c.run (front ++ later) = (c.run front).run later :=
  List.foldl_append

theorem trace_append (c : Calculator) (front later : List Event) :
    c.trace (front ++ later) = c.trace front ++ (c.run front).trace later := by
  induction front generalizing c with
  | nil => rfl
  | cons e front ih =>
      simp only [List.cons_append, trace, ih]
      rfl

/-- Every step of a run is its event in the state behind the events before it. -/
theorem trace_getElem? (c : Calculator) (events : List Event) (i : Nat) :
    (c.trace events)[i]? = events[i]?.map fun e => (e, (c.run (events.take i)).apply e) := by
  induction events generalizing c i with
  | nil => rfl
  | cons e events ih =>
      cases i with
      | zero => rfl
      | succ i => exact ih (c.apply e).2 i

/-- What every effect keeps holds in every state of a run. -/
theorem run_induction {P : Calculator → Prop}
    (hstep : ∀ {c c' e o}, Effect c e o c' → P c → P c') (hstart : P c) (events : List Event) :
    P (c.run events) := by
  induction events generalizing c with
  | nil => exact hstart
  | cons e events ih => exact ih (hstep (c.apply_effect e) hstart)

/-- No key changes the settings. -/
theorem Effect.settings_eq {c' : Calculator} {o : Outcome} (h : Effect c e o c') :
    c'.settings = c.settings := by
  cases h with
  | ignore => rfl
  | reject _ _ => rfl
  | edit _ => rfl
  | clear => rfl
  | result _ => rfl
  | error => rfl
  | toggle => rfl

theorem run_settings (c : Calculator) (events : List Event) :
    (c.run events).settings = c.settings := by
  refine run_induction (P := fun c' => c'.settings = c.settings) ?_ rfl events
  intro c₁ c₂ e o heffect hsame
  exact heffect.settings_eq.trans hsame

end Calculator

end PocketCalc
