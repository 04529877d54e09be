import PocketCalc.Settings
import PocketCalc.Token

/-!
# The display

What is drawn for a calculator: the committed tokens with their kinds, the number
being typed, and a few flags. The main line puts a space on either side of an
operator and joins everything else.

* `expressionText` — tokens and pending number as one line.
* `Display` — everything that is drawn; `Display.line` is the main line.
-/

namespace PocketCalc

/-! ## Tokens on the display -/

/-- How a token is styled. -/
inductive TokenKind where
  | number | operator | function | constant | paren
  deriving DecidableEq, Repr

def TokenKind.name : TokenKind → String
  | number => "number"
  | operator => "operator"
  | function => "function"
  | constant => "constant"
  | paren => "paren"

def TokenKind.ofName? : String → Option TokenKind
  | "number" => some number
  | "operator" => some operator
  | "function" => some function
  | "constant" => some constant
  | "paren" => some paren
  | _ => none

/-- A token as it is drawn. -/
structure DisplayToken where
  text : List Char
  kind : TokenKind
  deriving DecidableEq, Repr

def Token.kind : Token → TokenKind
  | number _ => .number
  | operator _ => .operator
  | function _ => .function
  | constant _ => .constant
  | openParen | closeParen => .paren

/-- A token as it is drawn. -/
def DisplayToken.ofToken (t : Token) : DisplayToken :=
  ⟨t.text, t.kind⟩

/-- The text of a token in its place on the line: an operator stands between spaces. -/
def DisplayToken.spaced (t : DisplayToken) : List Char :=
  if t.kind = .operator then ' ' :: t.text ++ [' '] else t.text

/-- Tokens and a pending number as one line. -/
def lineOf (tokens : List DisplayToken) (pending : List Char) : List Char :=
  tokens.flatMap DisplayToken.spaced ++ pending

/-- An expression and a pending number as one line. -/
def expressionText (tokens : List Token) (pending : List Char) : List Char :=
  lineOf (tokens.map DisplayToken.ofToken) pending

/-! ## Display -/

def errorText : List Char := "Error".toList

structure Display where
  tokens : List DisplayToken
  /-- The number being typed. -/
  pending : List Char
  /-- A result has just been calculated. -/
  isResult : Bool
  isError : Bool
  /-- A zero divisor is being typed. -/
  divisionWarning : Bool
  /-- The last evaluated expression, with an equals sign behind it. -/
  preview : Option (List Char)
  angleUnit : AngleUnit
  mode : Mode
  deriving DecidableEq, Repr

/-- The main line: an error message, the expression, or `0` when there is none. -/
def Display.line (d : Display) : List Char :=
  if d.isError then errorText
  else
    let text := lineOf d.tokens d.pending
    if text.isEmpty then ['0'] else text

end PocketCalc
