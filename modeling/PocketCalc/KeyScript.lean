import PocketCalc.Calculator
import PocketCalc.Keypad
import PocketCalc.Text.Blank

/-!
# Key scripts and sessions

A key script is a list of words. A word is the name of a key, or a literal of
digits and points that is typed one key at a time. A script is read as a whole
before any key is pressed, so an unknown word leaves the calculator untouched.

* `wordEvents` — the events of a word.
* `scriptEvents` — the events of a script.
* `Session.press` — a script pressed on a calculator, with one step per event, or not at all.
-/

namespace PocketCalc

/-- A word that names no key. -/
structure UnknownKey where
  word : String
  deriving DecidableEq, Repr

def UnknownKey.message (e : UnknownKey) : String :=
  "Unknown key: '" ++ e.word ++ "'"

/-! ## Words -/

/-- A character of a typed literal. -/
def isLiteralChar (c : Char) : Bool :=
  c.isDigit || c == '.'

def wordEvents (word : String) : Except UnknownKey (List Event) :=
  match keyEvent? word with
  | some event => .ok [event]
  | none =>
    if word.toList.all isLiteralChar then
      match word.toList.mapM fun c => keyEvent? (String.singleton c) with
      | some events => .ok events
      | none => .error ⟨word⟩
    else .error ⟨word⟩

/-- The events of a script, or the first word that names no key. -/
def scriptEvents : List String → Except UnknownKey (List Event)
  | [] => .ok []
  | word :: words => do
    let events ← wordEvents word
    let more ← scriptEvents words
    return events ++ more

def lineWords (line : List Char) : List String :=
  (Text.words line).map String.ofList

/-! ## Sessions -/

/-- One pressed key, what it did, and the line displayed afterwards. -/
structure Step where
  event : Event
  outcome : Outcome
  line : List Char
  deriving DecidableEq, Repr

def stepsOf (c : Calculator) (events : List Event) : List Step :=
  (c.trace events).map fun (event, outcome, after) => ⟨event, outcome, after.line⟩

/-- A calculator that is fed key scripts. -/
structure Session where
  calculator : Calculator
  deriving DecidableEq, Repr

namespace Session

def new (settings : Settings) : Session :=
  ⟨.new settings⟩

/-- Presses the keys of a script. One that cannot be read presses none. -/
def press (s : Session) (words : List String) : Except UnknownKey (List Step) × Session :=
  match scriptEvents words with
  | .ok events => (.ok (stepsOf s.calculator events), ⟨s.calculator.run events⟩)
  | .error e => (.error e, s)

end Session

end PocketCalc
