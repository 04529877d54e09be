/-!
# Tokens of an expression

The five binary operators, the eight functions, the two constants, and the tokens
that make up an entered expression. A number token keeps its literal as it was
typed or as a result was written.

* `Token.text` — what the display shows for a token.
* `Token.endsValue`, `Token.isDangling` — what may follow a token, and whether an
  expression may end on it.
* `parenBalance` — the number of groups that are still open.
-/

namespace PocketCalc

/-! ## Operators -/

inductive Operator where
  | add | subtract | multiply | divide | power
  deriving DecidableEq, Repr

namespace Operator

/-- All operators, in keypad order. -/
def all : List Operator := [add, subtract, multiply, divide, power]

def name : Operator → String
  | add => "add"
  | subtract => "subtract"
  | multiply => "multiply"
  | divide => "divide"
  | power => "power"

/-- The sign shown on the display. -/
def symbol : Operator → Char
  | add => '+'
  | subtract => '−'
  | multiply => '×'
  | divide => '÷'
  | power => '^'

def ascii : Operator → Char
  | add => '+'
  | subtract => '-'
  | multiply => '*'
  | divide => '/'
  | power => '^'

/-- The operator that a character spells: its ASCII spelling, its sign, or `x`. -/
def ofChar? : Char → Option Operator
  | '+' => some add
  | '-' | '−' => some subtract
  | '*' | '×' | 'x' => some multiply
  | '/' | '÷' => some divide
  | '^' => some power
  | _ => none

/-- How tightly an operator binds. -/
def precedence : Operator → Nat
  | add | subtract => 1
  | multiply | divide => 2
  | power => 3

/-- Groups from the right. -/
def isRightAssociative : Operator → Bool
  | power => true
  | _ => false

theorem ofChar?_symbol (op : Operator) : ofChar? op.symbol = some op := by
  cases op <;> rfl

theorem ofChar?_ascii (op : Operator) : ofChar? op.ascii = some op := by
  cases op <;> rfl

end Operator

/-! ## Functions -/

/-- A function of one argument. -/
inductive Func where
  | sin | cos | tan | ln | log | sqrt | abs | inv
  deriving DecidableEq, Repr

/-- The texts agree up to the case of ASCII letters. -/
def sameLetters (a b : String) : Bool :=
  a.toList.map Char.toLower == b.toList.map Char.toLower

namespace Func

/-- All functions, in keypad order. -/
def all : List Func := [sin, cos, tan, ln, log, sqrt, abs, inv]

def name : Func → String
  | sin => "sin"
  | cos => "cos"
  | tan => "tan"
  | ln => "ln"
  | log => "log"
  | sqrt => "sqrt"
  | abs => "abs"
  | inv => "inv"

/-- What the display shows: the root sign, otherwise the name. -/
def symbol : Func → String
  | sqrt => "√"
  | f => f.name

/-- The function with a name, in any case of letters; the root sign names the square root. -/
def ofName? (name : String) : Option Func :=
  if name = "√" then some sqrt else all.find? fun f => sameLetters f.name name

/-- The functions whose argument is an angle. -/
def isTrigonometric : Func → Bool
  | sin | cos | tan => true
  | _ => false

end Func

/-! ## Constants -/

inductive Constant where
  | pi | e
  deriving DecidableEq, Repr

namespace Constant

def name : Constant → String
  | pi => "pi"
  | e => "e"

/-- What the display shows. -/
def symbol : Constant → Char
  | pi => 'π'
  | e => 'e'

/-- The constant with a name: `π`, `pi` in any case of letters, `e` or `E`. -/
def ofName? (name : String) : Option Constant :=
  if name = "π" then some pi
  else if name = "e" ∨ name = "E" then some e
  else if sameLetters name "pi" then some pi
  else none

/-- The value of a constant, to the nearest floating-point number. -/
def value : Constant → Float
  | pi => 3.141592653589793
  | e => 2.718281828459045

end Constant

/-! ## Tokens -/

/-- One unit of an entered expression. -/
inductive Token where
  /-- A literal, as typed or as a result was written. -/
  | number (literal : List Char)
  | operator (op : Operator)
  /-- The name of a function; its argument stands in the group behind it. -/
  | function (f : Func)
  | constant (c : Constant)
  | openParen
  | closeParen
  deriving DecidableEq, Repr

namespace Token

/-- What the display shows for a token. -/
def text : Token → List Char
  | number literal => literal
  | operator op => [op.symbol]
  | function f => f.symbol.toList
  | constant c => [c.symbol]
  | openParen => ['(']
  | closeParen => [')']

/-- A value is complete behind this token. -/
def endsValue : Token → Bool
  | number _ | constant _ | closeParen => true
  | _ => false

/-- No expression may end on this token. -/
def isDangling : Token → Bool
  | operator _ | function _ | openParen => true
  | _ => false

/-- A token either completes a value or is left dangling. -/
theorem isDangling_eq_not_endsValue (t : Token) : t.isDangling = !t.endsValue := by
  cases t <;> rfl

def isOperator : Token → Bool
  | operator _ => true
  | _ => false

def isFunction : Token → Bool
  | function _ => true
  | _ => false

def isOpenParen : Token → Bool
  | openParen => true
  | _ => false

end Token

/-! ## Nesting -/

/-- The nesting depth behind a token. A closing paren with nothing open changes nothing. -/
def depthAfter (depth : Nat) : Token → Nat
  | .openParen => depth + 1
  | .closeParen => depth - 1
  | _ => depth

/-- The number of groups that a sequence of tokens leaves open. -/
def parenBalance (tokens : List Token) : Nat :=
  tokens.foldl depthAfter 0

end PocketCalc
