import PocketCalc.Yaml.Spot

/-!
# Scalars on a line

A scalar is a single text. It is plain, without any mark around it, or quoted. In
each of the three styles a line break between two words reads as one space, and a
run of more line breaks reads as one fewer.

* `Style` — how a scalar is written.
* `Fold` — blanks and line breaks between two words, and how they read.
* `singleQuoted?` — a text between single quotes, in which a quote is written twice.
* `doubleQuoted?` — a text between double quotes, with escapes.
* `plain?` — a text without quotes, which ends where a mark begins.
-/

namespace PocketCalc.Yaml

/-- How a scalar is written. -/
inductive Style where
  | plain
  | quoted
  /-- Line by line below a bar. -/
  | literal
  /-- Line by line below a greater-than sign. -/
  | folded
  deriving DecidableEq, Repr

/-! ## Folding -/

/-- Blanks and line breaks between two words. -/
structure Fold where
  blanks : List Char := []
  breaks : List Char := []
  /-- An escaped line break, which reads as nothing, came first. -/
  joined : Bool := false
  deriving DecidableEq, Repr

namespace Fold

/-- How the space reads. Blanks beside a line break do not count, and a line feed
that comes first stands for a space unless more breaks follow. -/
def text (f : Fold) : List Char :=
  if f.joined then f.breaks
  else
    match f.breaks with
    | [] => f.blanks
    | ['\n'] => [' ']
    | '\n' :: more => more
    | breaks => breaks

/-- One blank more. -/
def addBlank (f : Fold) (c : Char) : Fold :=
  { f with blanks := f.blanks ++ [c] }

/-- One line break more. -/
def addBreak (f : Fold) (c : Char) : Fold :=
  { f with breaks := f.breaks ++ [c] }

end Fold

/-! ## Quoted scalars -/

/-- The rest of a text between single quotes. -/
def singleQuoted? (f : Fold) : List Spot → Option Taken
  | [] => none
  | s :: rest =>
    if isGap s.char then singleQuoted? (f.addBlank s.char) rest
    else if isBreak s.char then singleQuoted? (f.addBreak s.char) rest
    else if atAnyRule (s :: rest) then none
    else if s.char = '\'' then
      match rest with
      | [] => some (f.text, [])
      | t :: rest' =>
        if t.char = '\'' then (singleQuoted? {} rest').map (Taken.onto (f.text ++ ['\'']))
        else some (f.text, t :: rest')
    else (singleQuoted? {} rest).map (Taken.onto (f.text ++ [s.char]))

/-- The character that a one-letter escape stands for. -/
def escape? : Char → Option Char
  | '0' => some '\x00'
  | 'a' => some '\x07'
  | 'b' => some '\x08'
  | 't' | '\t' => some '\t'
  | 'n' => some '\n'
  | 'v' => some '\x0b'
  | 'f' => some '\x0c'
  | 'r' => some '\r'
  | 'e' => some '\x1b'
  | ' ' => some ' '
  | '"' => some '"'
  | '/' => some '/'
  | '\\' => some '\\'
  | 'N' => some '\u0085'
  | '_' => some '\u00a0'
  | 'L' => some '\u2028'
  | 'P' => some '\u2029'
  | _ => none

/-- The number of hexadecimal digits behind an escape that spells a code point. -/
def escapeWidth? : Char → Option Nat
  | 'x' => some 2
  | 'u' => some 4
  | 'U' => some 8
  | _ => none

/-- The value of a digit in bases up to sixteen. -/
def digitValue? (c : Char) : Option Nat :=
  if '0' ≤ c ∧ c ≤ '9' then some (c.toNat - 48)
  else if 'a' ≤ c ∧ c ≤ 'f' then some (c.toNat - 87)
  else if 'A' ≤ c ∧ c ≤ 'F' then some (c.toNat - 55)
  else none

/-- The character with a code point. -/
def charOfCode? (code : Nat) : Option Char :=
  if code.isValidChar then some (Char.ofNat code) else none

/-- What a reader of a text between double quotes is about to read. -/
inductive QuoteState where
  /-- Text, after some space. -/
  | text (f : Fold)
  /-- The letter of an escape. -/
  | escape
  /-- More hexadecimal digits of a code point that has begun, at least one. -/
  | code (digits : Nat) (begun : Nat)

/-- The rest of a text between double quotes. -/
def doubleQuoted? : QuoteState → List Spot → Option Taken
  | _, [] => none
  | .text f, s :: rest =>
    if isGap s.char then doubleQuoted? (.text (f.addBlank s.char)) rest
    else if isBreak s.char then doubleQuoted? (.text (f.addBreak s.char)) rest
    else if atAnyRule (s :: rest) then none
    else if s.char = '"' then some (f.text, rest)
    else if s.char = '\\' then (doubleQuoted? .escape rest).map (Taken.onto f.text)
    else (doubleQuoted? (.text {}) rest).map (Taken.onto (f.text ++ [s.char]))
  | .escape, s :: rest =>
    if isBreak s.char then doubleQuoted? (.text { joined := true }) rest
    else
      match escapeWidth? s.char, escape? s.char with
      | some width, _ => doubleQuoted? (.code width 0) rest
      | none, some c => (doubleQuoted? (.text {}) rest).map (Taken.onto [c])
      | none, none => none
  | .code digits begun, s :: rest => do
    let code := 16 * begun + (← digitValue? s.char)
    if digits ≤ 1 then (← doubleQuoted? (.text {}) rest).onto [← charOfCode? code]
    else doubleQuoted? (.code (digits - 1) code) rest

/-! ## Plain scalars -/

/-- Where a plain scalar stands. -/
structure Surroundings where
  /-- Inside brackets. -/
  bracketed : Bool
  /-- The least column for lines that continue it outside brackets. -/
  floor : Nat

/-- The brackets and the comma, which are marks inside brackets. -/
def isBracketMark (c : Char) : Bool :=
  [',', '[', ']', '\x7b', '\x7d'].contains c

/-- Characters with which no plain scalar begins. -/
def isMark (c : Char) : Bool :=
  isBracketMark c || ['#', '&', '*', '!', '|', '>', '\'', '"', '%', '@', '\x60'].contains c

/-- A plain scalar may begin here. -/
def startsPlain (bracketed : Bool) : List Spot → Bool
  | [] => false
  | s :: rest =>
    if isGap s.char || isBreak s.char || isMark s.char then false
    else if s.char = '-' then !atGap rest
    else if s.char = '?' || s.char = ':' then !bracketed && !atGap rest
    else true

/-- After some space, the plain scalar is over here: at a comment, at a line that is
not indented enough or that ends the document, at a colon in front of a gap, or at a
mark inside brackets. -/
def endsPlain (around : Surroundings) (f : Fold) (s : Spot) (rest : List Spot) : Bool :=
  (s.char == '#' && f != {})
    || (!around.bracketed && f.breaks != [] && s.column < around.floor)
    || atAnyRule (s :: rest)
    || (s.char == ':' && atGap rest)
    || (around.bracketed && isBracketMark s.char)

/-- Inside brackets no bracket, comma or question mark may follow a colon directly. -/
def isStrayColon (around : Surroundings) (s : Spot) (rest : List Spot) : Bool :=
  around.bracketed && s.char == ':' && atChar (fun c => isBracketMark c || c == '?') rest

/-- A plain scalar after some space: its text, the space behind it and what follows. -/
def plain? (around : Surroundings) (f : Fold) : List Spot → Option (List Char × Fold × List Spot)
  | [] => some ([], f, [])
  | s :: rest =>
    if isBreak s.char then plain? around (f.addBreak s.char) rest
    else if isGap s.char then
      if s.char = '\t' ∧ f.breaks ≠ [] ∧ s.column < around.floor then none
      else plain? around (f.addBlank s.char) rest
    else if endsPlain around f s rest then some ([], f, s :: rest)
    else if isStrayColon around s rest then none
    else
      (plain? around {} rest).map fun (text, behind, rest) =>
        (f.text ++ s.char :: text, behind, rest)

end PocketCalc.Yaml
