/-!
# Characters with their places

Where a character of a YAML document stands decides what it means: a line that is
indented further belongs to what is above it, and some marks have a meaning only at
the start of a line.

* `spots?` — the characters of a text, each with its place.
* `atGap`, `atMark`, `atRule` — what comes next.
* `span` — the text up to the first character of another kind.
-/

namespace PocketCalc.Yaml

/-- A character and where it stands. -/
structure Spot where
  char : Char
  line : Nat
  column : Nat
  /-- The octets that the characters in front of it on its line take up in UTF-8. -/
  offset : Nat
  deriving DecidableEq, Repr

/-! ## Kinds of characters -/

/-- A space or a tab. -/
def isGap (c : Char) : Bool :=
  c == ' ' || c == '\t'

/-- A line break, once the breaks that a line feed stands for are unified. -/
def isBreak (c : Char) : Bool :=
  c == '\n' || c == '\u2028' || c == '\u2029'

/-- A letter, a digit, a hyphen or an underscore. -/
def isWord (c : Char) : Bool :=
  c.isAlphanum || c == '-' || c == '_'

/-- A character that a document may hold. -/
def isAllowed (c : Char) : Bool :=
  c == '\t' || c == '\n' || c == '\r' || c == '\u0085'
    || (0x20 ≤ c.toNat && c.toNat ≤ 0x7e) || (0xa0 ≤ c.toNat && c.toNat ≤ 0xd7ff)
    || (0xe000 ≤ c.toNat && c.toNat ≤ 0xfffd) || 0x10000 ≤ c.toNat

/-! ## Placing -/

/-- A text in which a line feed stands for every carriage return, with or without a
line feed behind it, and for every next-line character. -/
def unifyBreaks : List Char → List Char
  | [] => []
  | '\r' :: '\n' :: cs => '\n' :: unifyBreaks cs
  | c :: cs => (if c = '\r' ∨ c = '\u0085' then '\n' else c) :: unifyBreaks cs

/-- The characters of a text that begins at a place. -/
def spotsFrom (line column offset : Nat) : List Char → List Spot
  | [] => []
  | c :: cs =>
    ⟨c, line, column, offset⟩ ::
      if isBreak c then spotsFrom (line + 1) 0 0 cs
      else spotsFrom line (column + 1) (offset + c.utf8Size) cs

/-- The characters of a whole text, all of which a document may hold. -/
def spots? (text : List Char) : Option (List Spot) :=
  if text.all isAllowed then some (spotsFrom 0 0 0 (unifyBreaks text)) else none

/-! ## Looking ahead -/

/-- The next character is of a kind. -/
def atChar (kind : Char → Bool) : List Spot → Bool
  | [] => false
  | s :: _ => kind s.char

/-- A blank, a line break or the end comes next. -/
def atGap : List Spot → Bool
  | [] => true
  | s :: _ => isGap s.char || isBreak s.char

/-- A line break or the end comes next. -/
def atLineEnd : List Spot → Bool
  | [] => true
  | s :: _ => isBreak s.char

/-- A line comes next that begins with three times the same mark and then a gap. -/
def atRule (mark : Char) : List Spot → Bool
  | s :: t :: u :: rest =>
    s.column == 0 && s.char == mark && t.char == mark && u.char == mark && atGap rest
  | _ => false

/-- A line comes next that begins or ends a document. -/
def atAnyRule (s : List Spot) : Bool :=
  atRule '-' s || atRule '.' s

/-! ## Taking -/

/-- A text and what follows it. -/
abbrev Taken := List Char × List Spot

/-- Characters in front of a text. -/
def Taken.onto (front : List Char) (t : Taken) : Taken :=
  (front ++ t.1, t.2)

/-- The text up to the first character that is not of a kind. -/
def span (kind : Char → Bool) (s : List Spot) : Taken :=
  ((s.takeWhile (kind ·.char)).map Spot.char, s.dropWhile (kind ·.char))

/-- What follows after blanks on the same line. -/
def skipGap (s : List Spot) : List Spot :=
  (span isGap s).2

/-- What follows on the next line, if this one holds blanks and a comment at most. -/
def nextLine? (s : List Spot) : Option (List Spot) :=
  let s := skipGap s
  let s := if atChar (· == '#') s then (span (!isBreak ·) s).2 else s
  if atLineEnd s then some s.tail else none

end PocketCalc.Yaml
