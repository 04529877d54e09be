/-!
# What can go wrong

The two mathematical errors end an evaluation with an error on the display. The
other two leave everything as it was.
-/

namespace PocketCalc

/-- Why an expression has no value at all. -/
inductive Malformed where
  /-- Nothing is left once the dangling tail is gone. -/
  | nothingToEvaluate
  /-- The stack is empty at the end. -/
  | noValueLeft
  /-- A number that cannot be read. -/
  | invalidLiteral (literal : List Char)
  deriving DecidableEq, Repr

/-- The error of a calculation or of a key press. -/
inductive CalcError where
  /-- The value is not finite and a zero divisor was used. -/
  | divisionByZero
  /-- The value is not finite for another reason. -/
  | domainError
  /-- There is nothing to calculate. -/
  | malformedInput (cause : Malformed)
  /-- The number being typed has as many digits as are allowed. -/
  | digitLimitExceeded (limit : Nat)
  deriving DecidableEq, Repr

def Malformed.message : Malformed → String
  | nothingToEvaluate => "nothing to evaluate"
  | noValueLeft => "no value left on the stack"
  | invalidLiteral literal => "invalid number literal '" ++ String.ofList literal ++ "'"

namespace CalcError

def message : CalcError → String
  | divisionByZero => "Division by zero"
  | domainError => "Math domain error"
  | malformedInput cause => "Malformed input: " ++ cause.message
  | digitLimitExceeded limit => "Maximum of " ++ toString limit ++ " digits reached"

/-- The errors that end an evaluation with an error on the display. -/
def isMathError : CalcError → Bool
  | divisionByZero | domainError => true
  | _ => false

end CalcError

end PocketCalc
