import PocketCalc.Display
import PocketCalc.Entry
import PocketCalc.Evaluation
import PocketCalc.Event

/-!
# The calculator

A calculator holds the committed tokens, the number being typed, whether the
display shows a result or an error, the angle unit, and the last evaluated
expression. Each event takes it to its next state and reports an outcome.

* `Calculator.apply` — one event.
* `Calculator.run` — a sequence of events.
* `Calculator.display` — what is drawn.

Entry keeps the committed tokens a readable beginning of an expression: a value
that follows a value gets a `×` in between, an operator replaces the one it
follows, and keys that make no sense in their place are ignored.
-/

namespace PocketCalc

structure Calculator where
  settings : Settings
  /-- The committed tokens, the latest first. -/
  entered : List Token
  /-- The number being typed. -/
  buffer : List Char
  /-- The display shows a result that has just been calculated. -/
  isResult : Bool
  isError : Bool
  angleUnit : AngleUnit
  /-- The last evaluated expression, with an equals sign behind it. -/
  preview : Option (List Char)
  deriving DecidableEq, Repr

namespace Calculator

/-! ## States -/

def new (settings : Settings) : Calculator where
  settings := settings
  entered := []
  buffer := []
  isResult := false
  isError := false
  angleUnit := settings.startUnit
  preview := none

/-- The committed tokens in reading order. -/
def tokens (c : Calculator) : List Token :=
  c.entered.reverse

/-- Nothing has been entered. -/
def isEmpty (c : Calculator) : Bool :=
  c.entered.isEmpty && c.buffer.isEmpty && !c.isError

/-- The last committed token completes a value. -/
def lastEndsValue (c : Calculator) : Bool :=
  match c.entered with
  | t :: _ => t.endsValue
  | [] => false

/-- A value is complete: one is being typed or the last token completes one. -/
def hasValue (c : Calculator) : Bool :=
  !c.buffer.isEmpty || c.lastEndsValue

/-- A group can be closed here. -/
def canClose (c : Calculator) : Bool :=
  0 < parenBalance c.tokens && c.hasValue

/-- A zero divisor is being typed. -/
def divisionWarning (c : Calculator) : Bool :=
  match c.entered with
  | .operator .divide :: _ =>
    match Decimal.readFloat? c.buffer with
    | some v => v == 0
    | none => false
  | _ => false

def display (c : Calculator) : Display where
  tokens := c.tokens.map DisplayToken.ofToken
  pending := c.buffer
  isResult := c.isResult
  isError := c.isError
  divisionWarning := c.divisionWarning
  preview := c.preview
  angleUnit := c.angleUnit
  mode := c.settings.mode

def line (c : Calculator) : List Char :=
  c.display.line

/-! ## Steps of entry -/

/-- Typing a number after a result starts a new expression. -/
def startFresh (c : Calculator) : Calculator :=
  if c.isResult then { c with entered := [], buffer := [], isResult := false, isError := false }
  else c

/-- Any other entry after a result builds on it. -/
def buildOn (c : Calculator) : Calculator :=
  if c.isResult then { c with isResult := false, isError := false } else c

/-- A token is put behind the committed ones. -/
def push (c : Calculator) (t : Token) : Calculator :=
  { c with entered := t :: c.entered }

/-- A `×` goes behind a completed value, where another value is to follow. -/
def implicitMultiply (c : Calculator) : Calculator :=
  if c.lastEndsValue then c.push (.operator .multiply) else c

/-- The number being typed becomes a committed token. -/
def commit (c : Calculator) : Calculator :=
  match pendingNumber? c.buffer with
  | some number => { c with entered := number :: c.entered, buffer := [] }
  | none => { c with buffer := [] }

/-- The typed number is committed, on top of a result if one is shown. -/
def settle (c : Calculator) : Calculator :=
  c.buildOn.commit

/-- Ready for a new value: everything is committed, and a `×` stands behind a value. -/
def beforeValue (c : Calculator) : Calculator :=
  c.settle.implicitMultiply

/-- Ready for the first character of a number. -/
def beforeNumber (c : Calculator) : Calculator :=
  if c.buffer.isEmpty then c.implicitMultiply else c

/-- Characters are put behind the number being typed. -/
def type (c : Calculator) (chars : List Char) : Calculator :=
  { c with buffer := c.buffer ++ chars }

/-! ## Events -/

/-- The number being typed, which a new digit adds to: none after a result. -/
def openNumber (c : Calculator) : List Char :=
  if c.isResult then [] else c.buffer

def digit (c : Calculator) (d : Decimal.Digit) : Outcome × Calculator :=
  let limit := c.settings.digitLimit
  if limit ≤ digitCount c.openNumber then (.rejected (.digitLimitExceeded limit), c)
  else (.updated, c.startFresh.beforeNumber.type [d.toChar])

/-- The decimal point. At the start of a number it becomes `0.`. -/
def decimalPoint (c : Calculator) : Outcome × Calculator :=
  if !c.isResult && (c.buffer.contains '.' || c.buffer.contains 'e') then (.ignored, c)
  else
    let c := c.startFresh
    if c.buffer.isEmpty then (.updated, c.beforeNumber.type ['0', '.'])
    else (.updated, c.type ['.'])

/-- The key `^`, which needs a value in front of it. -/
def power (c : Calculator) : Outcome × Calculator :=
  if c.hasValue then (.updated, c.settle.push (.operator .power)) else (.ignored, c)

/-- An operator behind whatever is committed. It replaces an operator that stands
there already, and at the very start it gets a `0` in front. -/
def putOperator (c : Calculator) (op : Operator) : Calculator :=
  match c.entered with
  | .operator _ :: rest => { c with entered := .operator op :: rest }
  | [] => { c with entered := [.operator op, .number ['0']] }
  | rest => { c with entered := .operator op :: rest }

/-- No value has been entered since the last paren was opened. -/
def atGroupStart (c : Calculator) : Bool :=
  c.buffer.isEmpty &&
    match c.entered with
    | t :: _ => t.isOpenParen || t.isFunction
    | [] => false

def operator (c : Calculator) (op : Operator) : Outcome × Calculator :=
  if op = .power then c.power
  else if c.atGroupStart then (.ignored, c)
  else (.updated, c.settle.putOperator op)

/-- The key `x²`. -/
def powerOfTwo (c : Calculator) : Outcome × Calculator :=
  if c.hasValue then (.updated, (c.settle.push (.operator .power)).push (.number ['2']))
  else (.ignored, c)

/-- The key `eˣ`. -/
def exponential (c : Calculator) : Outcome × Calculator :=
  (.updated, (c.beforeValue.push (.constant .e)).push (.operator .power))

/-- A function with its opening paren. -/
def function (c : Calculator) (f : Func) : Outcome × Calculator :=
  (.updated, (c.beforeValue.push (.function f)).push .openParen)

def constant (c : Calculator) (k : Constant) : Outcome × Calculator :=
  (.updated, c.beforeValue.push (.constant k))

def openParen (c : Calculator) : Outcome × Calculator :=
  (.updated, c.beforeValue.push .openParen)

/-- A closing paren, where a group can be closed. -/
def closeParen (c : Calculator) : Outcome × Calculator :=
  if c.canClose then (.updated, c.settle.push .closeParen) else (.ignored, c)

/-- One key for both parens. -/
def openOrCloseParen (c : Calculator) : Outcome × Calculator :=
  if c.canClose then c.closeParen else c.openParen

/-- The last character or token goes. A function goes with its paren. A committed
number can be edited again, without its last character and within the digit limit.
A result stays. -/
def backspace (c : Calculator) : Outcome × Calculator :=
  if c.isResult then (.ignored, c)
  else if !c.buffer.isEmpty then (.updated, { c with buffer := erase c.buffer })
  else
    match c.entered with
    | [] => (.ignored, c)
    | .openParen :: .function _ :: rest => (.updated, { c with entered := rest })
    | .number literal :: rest =>
      (.updated, { c with
        entered := rest
        buffer := cutToLimit c.settings.digitLimit (erase literal) })
    | _ :: rest => (.updated, { c with entered := rest })

/-- Everything that was entered goes. -/
def clear (c : Calculator) : Outcome × Calculator :=
  (.updated, { c with
    entered := [], buffer := [], isResult := false, isError := false, preview := none })

/-- Clearing leaves a new calculator but for the unit of angles, which is kept. -/
theorem clear_eq (c : Calculator) :
    c.clear = (.updated, { new c.settings with angleUnit := c.angleUnit }) := rfl

/-- The expression that would be evaluated: the committed tokens and the number
being typed. -/
def expression (c : Calculator) : List Token :=
  c.tokens ++ (pendingNumber? c.buffer).toList

/-- Evaluates the expression. A mathematical error is displayed; where there is
nothing to evaluate the state is left alone. -/
def equals (c : Calculator) : Outcome × Calculator :=
  let preview := expressionText c.expression [] ++ [' ', '=']
  match evaluateTokens c.angleUnit c.settings.format c.expression with
  | .ok result =>
    (.evaluated result.display, { c with
      entered := [.number result.display], buffer := [], isResult := true, isError := false,
      preview := some preview })
  | .error error =>
    if error.isMathError then
      (.evaluated errorText, { c with
        entered := [], buffer := [], isResult := true, isError := true,
        preview := some preview })
    else (.ignored, c)

/-- The other angle unit, in a mode that has a choice. -/
def toggleAngleUnit (c : Calculator) : Outcome × Calculator :=
  if c.settings.mode.hasAngleUnit then (.updated, { c with angleUnit := c.angleUnit.toggled })
  else (.ignored, c)

/-! ## Runs -/

def apply (c : Calculator) : Event → Outcome × Calculator
  | .digit d => if h : d.toNat < 10 then c.digit ⟨d.toNat, h⟩ else (.ignored, c)
  | .decimalPoint => c.decimalPoint
  | .operator op => c.operator op
  | .function f => c.function f
  | .constant k => c.constant k
  | .openOrCloseParen => c.openOrCloseParen
  | .openParen => c.openParen
  | .closeParen => c.closeParen
  | .power => c.power
  | .powerOfTwo => c.powerOfTwo
  | .exponential => c.exponential
  | .backspace => c.backspace
  | .clear => c.clear
  | .equals => c.equals
  | .toggleAngleUnit => c.toggleAngleUnit

/-- The state behind a sequence of events. -/
def run (c : Calculator) (events : List Event) : Calculator :=
  events.foldl (fun c e => (c.apply e).2) c

/-- A sequence of events: the outcome of the last one and the state behind it. -/
def applyAll (c : Calculator) (events : List Event) : Outcome × Calculator :=
  events.foldl (fun s e => s.2.apply e) (.ignored, c)

/-- Every state on the way through a sequence of events, with the event and its outcome. -/
def trace (c : Calculator) : List Event → List (Event × Outcome × Calculator)
  | [] => []
  | e :: es => (e, c.apply e) :: (c.apply e).2.trace es

end Calculator

end PocketCalc
