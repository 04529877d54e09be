import PocketCalc.Calculator
import PocketCalc.Keypad

/-!
# A calculator with its keypad

What a graphical panel needs: clicks on buttons by id, keyboard keys by name, and a
notice when a press was refused. Unknown buttons and keys do nothing.
-/

namespace PocketCalc

/-- A calculator and the keypad it is shown with. -/
structure Panel where
  calculator : Calculator
  keypad : Keypad

namespace Panel

/-- The panel of a mode, with the other settings at their defaults. -/
def ofMode (mode : Mode) : Panel :=
  ⟨.new { mode := mode }, .ofMode mode⟩

/-- Sends an event to the calculator, if there is one. The result is the notice of
a refused press. -/
def dispatch (p : Panel) : Option Event → Option String × Panel
  | none => (none, p)
  | some event =>
    let (outcome, calculator) := p.calculator.apply event
    (outcome.notice?, { p with calculator := calculator })

def click (p : Panel) (id : String) : Option String × Panel :=
  p.dispatch (p.keypad.click? id)

def key (p : Panel) (name : String) : Option String × Panel :=
  p.dispatch (keyEvent? name)

def toggle (p : Panel) : Panel :=
  { p with calculator := p.calculator.toggleAngleUnit.2 }

def clear (p : Panel) : Panel :=
  { p with calculator := p.calculator.clear.2 }

end Panel

end PocketCalc
