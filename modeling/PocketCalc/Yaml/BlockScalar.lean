import PocketCalc.Yaml.Scalar

/-!
# Scalars by lines

Below a bar or a greater-than sign stands a text whose lines are all indented by the
same number of columns. Below a bar each line break is kept; below a greater-than sign
a line break between two lines reads as in other scalars, unless one of the two is
indented further. Behind the sign an indicator says which breaks count at the end.

* `BlockHeader` — what stands behind the sign.
* `BlockLine` — a line and the breaks behind it.
* `blockScalar?` — a text from behind the sign on.
-/

namespace PocketCalc.Yaml

/-! ## The header -/

/-- Which line breaks count at the end of the text. -/
inductive Chomping where
  /-- None of them. -/
  | strip
  /-- The one that ends the last line. -/
  | clip
  /-- All of them. -/
  | keep
  deriving DecidableEq, Repr

/-- What stands behind the sign: the treatment of the end and, if it is written, how
much further than the block around it the text is indented. -/
structure BlockHeader where
  chomping : Chomping := .clip
  indent : Option Nat := none
  deriving DecidableEq, Repr

/-- An indicator for the end of the text. -/
def chomping? : Char → Option Chomping
  | '-' => some .strip
  | '+' => some .keep
  | _ => none

/-- An indicator for the indentation, from one to nine. -/
def indent? (c : Char) : Option Nat :=
  if '1' ≤ c ∧ c ≤ '9' then digitValue? c else none

/-- The two indicators in either order, each of which may be missing. -/
def header : List Spot → BlockHeader × List Spot
  | [] => ({}, [])
  | s :: rest =>
    match chomping? s.char, indent? s.char, rest with
    | some chomping, _, t :: rest' =>
      match indent? t.char with
      | some indent => ({ chomping, indent := some indent }, rest')
      | none => ({ chomping }, rest)
    | some chomping, _, [] => ({ chomping }, [])
    | none, some indent, t :: rest' =>
      match chomping? t.char with
      | some chomping => ({ chomping, indent := some indent }, rest')
      | none => ({ indent := some indent }, rest)
    | none, some indent, [] => ({ indent := some indent }, [])
    | none, none, _ => ({}, s :: rest)

/-! ## Lines -/

/-- The breaks of the empty lines in front of a line of text, the last column they
reach, and what follows. Spaces count as empty up to the indentation, if it is known,
where no tab may stand. -/
def emptyLines? (indent : Option Nat) : List Spot → Option (List Char × Nat × List Spot)
  | [] => some ([], 0, [])
  | s :: rest =>
    let outside := indent.all (s.column < ·)
    if isBreak s.char || (outside && s.char == ' ') then
      (emptyLines? indent rest).map fun (breaks, column, rest) =>
        (if isBreak s.char then s.char :: breaks else breaks, max s.column column, rest)
    else if outside && s.char == '\t' then none
    else some ([], s.column, s :: rest)

/-- A line of text: what stands in it, the break that ends it, and the breaks of the
empty lines below. -/
structure BlockLine where
  text : List Char
  ending : List Char
  below : List Char
  deriving DecidableEq, Repr

/-- The lines of text that begin in a column, each of which takes up a character. -/
def blockLines? (column : Nat) : Nat → List Spot → Option (List BlockLine × List Spot)
  | 0, s => some ([], s)
  | fuel + 1, s =>
    if (s.head?.map Spot.column) ≠ some column then some ([], s)
    else do
      let (text, rest) := span (!isBreak ·) s
      let (below, _, after) ← emptyLines? (some column) rest.tail
      let (lines, after) ← blockLines? column fuel after
      return (⟨text, (rest.take 1).map Spot.char, below⟩ :: lines, after)

namespace BlockLine

/-- The line is indented further than the text. -/
def isDeeper (line : BlockLine) : Bool :=
  line.text.head?.any isGap

/-- How the breaks between two lines read. -/
def between (style : Style) (line next : BlockLine) : List Char :=
  if style = .folded ∧ line.ending = ['\n'] ∧ !line.isDeeper ∧ !next.isDeeper then
    if line.below = [] then [' '] else line.below
  else line.ending ++ line.below

/-- How the breaks behind the last line read. -/
def atEnd (chomping : Chomping) (line : BlockLine) : List Char :=
  match chomping with
  | .strip => []
  | .clip => line.ending
  | .keep => line.ending ++ line.below

/-- The text of lines. -/
def joined (style : Style) (chomping : Chomping) : List BlockLine → List Char
  | [] => []
  | [line] => line.text ++ line.atEnd chomping
  | line :: next :: lines =>
    line.text ++ line.between style next ++ joined style chomping (next :: lines)

end BlockLine

/-! ## The whole -/

/-- A text by lines inside a block, whose parts begin in a column at least. Where the
header does not say how far the text is indented, its first line or a deeper empty
line in front of it does. -/
def blockScalar? (style : Style) (floor : Nat) (s : List Spot) : Option Taken := do
  let (header, rest) := header s
  let rest ← nextLine? rest
  let given := header.indent.map (floor - 1 + ·)
  let (above, deepest, rest) ← emptyLines? given rest
  let column := given.getD (max deepest (max floor 1))
  let (lines, rest) ← blockLines? column rest.length rest
  let above := if lines = [] ∧ header.chomping ≠ .keep then [] else above
  return (above ++ BlockLine.joined style header.chomping lines, rest)

end PocketCalc.Yaml
