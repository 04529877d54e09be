import PocketCalc.Proofs.EventEffects

/-!
# What entry looks at

Tokens, buffer and flags are edited without a look at the rest of the state: settings, unit
of angles and preview are the `Context` of the entry. Of the settings only the limit of
digits matters, and only to the digits and to erasing.

So a key of entry does the same in every context with the same limit, and it keeps the
context (`apply_inContext`, `Effect.context_eq`). Each step of entry and each handler has its
own equation: moving a state to another context first, or afterwards, makes no difference.
-/

namespace PocketCalc

/-- The keys that edit the entry: all but those that clear, evaluate or toggle the unit. -/
def Event.isEntry : Event → Bool
  | .clear | .equals | .toggleAngleUnit => false
  | _ => true

namespace Calculator

/-- What a state holds besides the entry. -/
structure Context where
  settings : Settings
  angleUnit : AngleUnit
  preview : Option (List Char)

def context (c : Calculator) : Context :=
  ⟨c.settings, c.angleUnit, c.preview⟩

/-- The same entry in another context. -/
def inContext (c : Calculator) (k : Context) : Calculator :=
  { c with settings := k.settings, angleUnit := k.angleUnit, preview := k.preview }

/-- What an event reports and leaves, with the state moved to another context. -/
def along (k : Context) (r : Outcome × Calculator) : Outcome × Calculator :=
  (r.1, r.2.inContext k)

variable (c : Calculator) (k : Context)

@[simp] theorem inContext_entered : (c.inContext k).entered = c.entered := rfl

@[simp] theorem inContext_buffer : (c.inContext k).buffer = c.buffer := rfl

@[simp] theorem inContext_isResult : (c.inContext k).isResult = c.isResult := rfl

@[simp] theorem inContext_settings : (c.inContext k).settings = k.settings := rfl

@[simp] theorem along_mk (o : Outcome) : along k (o, c) = (o, c.inContext k) := rfl

@[simp] theorem along_ite (p : Prop) [Decidable p] (r s : Outcome × Calculator) :
    along k (if p then r else s) = if p then along k r else along k s :=
  apply_ite (along k) p r s

/-! ## Conditions -/

@[simp] theorem lastEndsValue_inContext : (c.inContext k).lastEndsValue = c.lastEndsValue := rfl

@[simp] theorem hasValue_inContext : (c.inContext k).hasValue = c.hasValue := rfl

@[simp] theorem canClose_inContext : (c.inContext k).canClose = c.canClose := rfl

@[simp] theorem atGroupStart_inContext : (c.inContext k).atGroupStart = c.atGroupStart := rfl

@[simp] theorem openNumber_inContext : (c.inContext k).openNumber = c.openNumber := rfl

/-! ## Steps of entry -/

@[simp] theorem push_inContext (t : Token) : (c.inContext k).push t = (c.push t).inContext k :=
  rfl

@[simp] theorem type_inContext (chars : List Char) :
    (c.inContext k).type chars = (c.type chars).inContext k := rfl

@[simp] theorem startFresh_inContext : (c.inContext k).startFresh = c.startFresh.inContext k := by
  cases h : c.isResult <;> simp [startFresh, inContext, h]

@[simp] theorem buildOn_inContext : (c.inContext k).buildOn = c.buildOn.inContext k := by
  cases h : c.isResult <;> simp [buildOn, inContext, h]

@[simp] theorem implicitMultiply_inContext :
    (c.inContext k).implicitMultiply = c.implicitMultiply.inContext k := by
  cases h : c.lastEndsValue <;> simp [implicitMultiply, h]

@[simp] theorem commit_inContext : (c.inContext k).commit = c.commit.inContext k := by
  cases h : pendingNumber? c.buffer <;> simp [commit, inContext, h]

@[simp] theorem settle_inContext : (c.inContext k).settle = c.settle.inContext k := by
  simp [settle]

@[simp] theorem beforeValue_inContext :
    (c.inContext k).beforeValue = c.beforeValue.inContext k := by
  simp [beforeValue]

@[simp] theorem beforeNumber_inContext :
    (c.inContext k).beforeNumber = c.beforeNumber.inContext k := by
  cases h : c.buffer.isEmpty <;> simp [beforeNumber, h]

@[simp] theorem putOperator_inContext (op : Operator) :
    (c.inContext k).putOperator op = (c.putOperator op).inContext k := by
  cases h : c.entered with
  | nil => simp [putOperator, inContext, h]
  | cons t ts => cases t <;> simp [putOperator, inContext, h]

/-! ## Events -/

variable {k}

theorem digit_inContext (hlimit : k.settings.digitLimit = c.settings.digitLimit)
    (d : Decimal.Digit) : (c.inContext k).digit d = along k (c.digit d) := by
  simp [digit, hlimit]

theorem decimalPoint_inContext : (c.inContext k).decimalPoint = along k c.decimalPoint := by
  simp [decimalPoint]

theorem power_inContext : (c.inContext k).power = along k c.power := by
  simp [power]

theorem operator_inContext (op : Operator) :
    (c.inContext k).operator op = along k (c.operator op) := by
  simp [operator, power_inContext]

theorem powerOfTwo_inContext : (c.inContext k).powerOfTwo = along k c.powerOfTwo := by
  simp [powerOfTwo]

theorem closeParen_inContext : (c.inContext k).closeParen = along k c.closeParen := by
  simp [closeParen]

theorem openOrCloseParen_inContext :
    (c.inContext k).openOrCloseParen = along k c.openOrCloseParen := by
  simp [openOrCloseParen, closeParen_inContext, openParen]

theorem backspace_inContext (hlimit : k.settings.digitLimit = c.settings.digitLimit) :
    (c.inContext k).backspace = along k c.backspace := by
  unfold backspace
  simp only [along_ite, along_mk, inContext_isResult, inContext_buffer, inContext_entered,
    inContext_settings, hlimit]
  split
  · rfl
  · split
    · rfl
    · split <;> rfl

/-- **A key of entry does the same in every context** with the same limit of digits. -/
theorem apply_inContext (hlimit : k.settings.digitLimit = c.settings.digitLimit) {e : Event}
    (he : e.isEntry = true) : (c.inContext k).apply e = along k (c.apply e) := by
  cases e with
  | digit d =>
      by_cases hd : d.toNat < 10
      · simpa only [apply, dif_pos hd] using c.digit_inContext hlimit _
      · simp [apply, hd]
  | decimalPoint => exact c.decimalPoint_inContext
  | operator op => exact c.operator_inContext op
  | function f => simp [apply, function]
  | constant x => simp [apply, constant]
  | openOrCloseParen => exact c.openOrCloseParen_inContext
  | openParen => simp [apply, openParen]
  | closeParen => exact c.closeParen_inContext
  | power => exact c.power_inContext
  | powerOfTwo => exact c.powerOfTwo_inContext
  | exponential => simp [apply, exponential]
  | backspace => exact c.backspace_inContext hlimit
  | clear => cases he
  | equals => cases he
  | toggleAngleUnit => cases he

variable {c}

/-- **A key of entry keeps the context.** -/
theorem Effect.context_eq {c' : Calculator} {e : Event} {o : Outcome} (h : Effect c e o c')
    (he : e.isEntry = true) : c'.context = c.context := by
  cases h with
  | ignore => rfl
  | reject _ _ => rfl
  | edit _ => rfl
  | clear => cases he
  | result _ => cases he
  | error => cases he
  | toggle => cases he

end Calculator

end PocketCalc
