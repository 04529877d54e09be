import PocketCalc.KeyScript
import PocketCalc.Printer

/-!
# The interactive loop

Key scripts are read line by line, and the display is printed after each. Blank
lines are passed over, `quit` or `exit` ends the loop, and a line with an unknown
word is reported and otherwise passed over.

* `endsRepl` — the lines that end the loop.
* `replLines` — the lines of an input that hold a script.
* `Session.replLine` — one of them, pressed and answered.
* `Session.repl` — the loop.
-/

namespace PocketCalc

/-- A text that goes to one of two places. -/
structure Output where
  /-- Lines of the output itself. -/
  out : List (List Char) := []
  /-- Lines beside it. -/
  notices : List (List Char) := []
  deriving DecidableEq, Repr

def Output.append (a b : Output) : Output :=
  ⟨a.out ++ b.out, a.notices ++ b.notices⟩

/-- A line that ends the loop: `quit` or `exit`, with or without blanks around it. -/
def endsRepl (line : List Char) : Bool :=
  Text.trim line == "quit".toList || Text.trim line == "exit".toList

/-- The trimmed lines that hold a script: those that are not blank and stand before the
first one that ends the loop. -/
def scriptLines (lines : List (List Char)) : List (List Char) :=
  ((lines.takeWhile fun line => !endsRepl line).map Text.trim).filter fun line => !line.isEmpty

/-- The trimmed lines of an input that hold a script. -/
def replLines (input : List Char) : List (List Char) :=
  scriptLines (Text.lines input)

/-- The notices of refused presses. -/
def noticesOf (p : Printer) (steps : List Step) : List (List Char) :=
  steps.filterMap fun step => step.outcome.notice?.map p.notice

namespace Session

def replLine (s : Session) (p : Printer) (line : List Char) : Output × Session :=
  match s.press (lineWords line) with
  | (.ok steps, after) => (⟨[p.render after.calculator.display], noticesOf p steps⟩, after)
  | (.error e, after) => (⟨[], [p.notice e.message]⟩, after)

/-- Lines as they come, until one ends the loop. -/
def replFrom (s : Session) (p : Printer) : List (List Char) → Output × Session
  | [] => ({}, s)
  | line :: rest =>
    let script := Text.trim line
    if script.isEmpty then s.replFrom p rest
    else if endsRepl line then ({}, s)
    else
      let (first, s) := s.replLine p script
      let (more, s) := s.replFrom p rest
      (first.append more, s)

def repl (s : Session) (p : Printer) (input : List Char) : Output × Session :=
  s.replFrom p (Text.lines input)

end Session

end PocketCalc
