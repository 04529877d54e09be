/-!
# Blanks, words and lines

A blank is a character with the White_Space property of Unicode 15: twenty-five
characters in ten ranges.

* `trim` — a text without the blanks at its ends.
* `words` — the pieces of a text between blanks.
* `lines` — the pieces of a text between line feeds.
-/

namespace PocketCalc.Text

/-- The blanks, as closed ranges of code points, ascending and apart. -/
def blankRanges : List (Nat × Nat) :=
  [(0x09, 0x0D), (0x20, 0x20), (0x85, 0x85), (0xA0, 0xA0), (0x1680, 0x1680),
   (0x2000, 0x200A), (0x2028, 0x2029), (0x202F, 0x202F), (0x205F, 0x205F), (0x3000, 0x3000)]

def isBlank (c : Char) : Bool :=
  blankRanges.any fun (first, last) => first ≤ c.toNat && c.toNat ≤ last

/-- Every whitespace character of ASCII is blank. -/
theorem isBlank_of_isWhitespace {c : Char} (h : c.isWhitespace = true) : isBlank c = true := by
  simp only [Char.isWhitespace, Bool.or_eq_true, decide_eq_true_eq] at h
  rcases h with ((h | h) | h) | h <;> subst h <;> decide

def trimStart (text : List Char) : List Char :=
  text.dropWhile isBlank

def trim (text : List Char) : List Char :=
  (trimStart (trimStart text).reverse).reverse

/-- The words of a text, with the characters of a word that has begun. -/
def wordsFrom (begun : List Char) : List Char → List (List Char)
  | [] => if begun.isEmpty then [] else [begun.reverse]
  | c :: cs =>
    if isBlank c then
      if begun.isEmpty then wordsFrom [] cs else begun.reverse :: wordsFrom [] cs
    else wordsFrom (c :: begun) cs

/-- The pieces of a text between blanks, none of them empty. -/
def words (text : List Char) : List (List Char) :=
  wordsFrom [] text

/-- The lines of a text, with the characters of a line that has begun. -/
def linesFrom (begun : List Char) : List Char → List (List Char)
  | [] => if begun.isEmpty then [] else [begun.reverse]
  | c :: cs => if c = '\n' then begun.reverse :: linesFrom [] cs else linesFrom (c :: begun) cs

/-- The pieces of a text that line feeds end. What follows the last line feed is a
line of its own unless it is empty. -/
def lines (text : List Char) : List (List Char) :=
  linesFrom [] text

end PocketCalc.Text
