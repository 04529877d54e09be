import PocketCalc.Decimal.Digit

/-!
# Styled terminal text

A style is a colour and attributes. Painted text has the escape sequences of its
style in front, colour first, and a reset behind; a style without any attribute
adds nothing.
-/

namespace PocketCalc

inductive Color where
  | red | green | yellow | magenta | cyan
  deriving DecidableEq, Repr

def Color.code : Color → Nat
  | red => 31
  | green => 32
  | yellow => 33
  | magenta => 35
  | cyan => 36

structure Style where
  color : Option Color := none
  bold : Bool := false
  dim : Bool := false
  underlined : Bool := false
  deriving DecidableEq, Repr

namespace Style

/-- No colour and no attribute. -/
def plain : Style := {}

def codes (s : Style) : List Nat :=
  (s.color.map Color.code).toList ++ (if s.bold then [1] else []) ++ (if s.dim then [2] else [])
    ++ (if s.underlined then [4] else [])

/-- The escape sequence with a code. -/
def sequence (code : Nat) : List Char :=
  '\x1b' :: '[' :: Decimal.natText code ++ ['m']

def paint (s : Style) (text : List Char) : List Char :=
  match s.codes with
  | [] => text
  | codes => codes.flatMap sequence ++ text ++ sequence 0

end Style

end PocketCalc
