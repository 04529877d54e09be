import PocketCalc.Decimal.Digit

/-!
# Compact JSON text

Values without fractions, written without a space and with the fields of an
object in the given order. In a string the quote, the backslash and the control
characters below the space are escaped, and nothing else is.
-/

namespace PocketCalc

inductive Json where
  | null
  | bool (b : Bool)
  | nat (n : Nat)
  | str (text : List Char)
  | arr (items : List Json)
  | obj (fields : List (String × Json))

namespace Json

/-! ## Strings -/

/-- A hexadecimal digit in lower case. -/
def hexDigit (n : Nat) : Char :=
  if n < 10 then Char.ofNat (48 + n) else Char.ofNat (87 + n)

/-- A character inside a string. -/
def escape (c : Char) : List Char :=
  if c = '"' then ['\\', '"']
  else if c = '\\' then ['\\', '\\']
  else if c = '\n' then ['\\', 'n']
  else if c = '\r' then ['\\', 'r']
  else if c = '\t' then ['\\', 't']
  else if c.toNat = 8 then ['\\', 'b']
  else if c.toNat = 12 then ['\\', 'f']
  else if c.toNat < 32 then
    ['\\', 'u', '0', '0', hexDigit (c.toNat / 16), hexDigit (c.toNat % 16)]
  else [c]

def quote (text : List Char) : List Char :=
  '"' :: text.flatMap escape ++ ['"']

/-! ## Values -/

mutual

/-- A value as compact text. -/
def compact : Json → List Char
  | null => "null".toList
  | bool true => "true".toList
  | bool false => "false".toList
  | nat n => Decimal.natText n
  | str text => quote text
  | arr items => '[' :: compactItems items ++ [']']
  | obj fields => '\x7b' :: compactFields fields ++ ['\x7d']

def compactItems : List Json → List Char
  | [] => []
  | [v] => v.compact
  | v :: vs => v.compact ++ ',' :: compactItems vs

def compactFields : List (String × Json) → List Char
  | [] => []
  | [(name, v)] => quote name.toList ++ ':' :: v.compact
  | (name, v) :: fields => quote name.toList ++ ':' :: v.compact ++ ',' :: compactFields fields

end

def ofString (s : String) : Json :=
  str s.toList

/-- A value that may be missing. -/
def ofOption {α : Type} (f : α → Json) : Option α → Json
  | some a => f a
  | none => null

end Json

end PocketCalc
