import PocketCalc.Yaml.BlockScalar
import PocketCalc.Yaml.Property

/-!
# Tokens

The marks, names and scalars of a document in a row. Indentation and the keys in front
of a colon are spelt out as well, so that the row can be read without columns.

* `Token` — a mark, a name, a scalar, or a change of the indentation.
-/

namespace PocketCalc.Yaml

/-- A part of a document. -/
inductive Token where
  | directive (line : Directive)
  /-- The line `---`. -/
  | opening
  /-- The line `...`. -/
  | closing
  /-- A sequence by dashes begins. -/
  | dashes
  /-- A mapping by indentation begins. -/
  | fields
  /-- The innermost sequence by dashes or mapping by indentation ends. -/
  | blockEnd
  | openSquare
  | closeSquare
  | openCurly
  | closeCurly
  | comma
  /-- The dash in front of an item. -/
  | dash
  /-- A question mark in front of a key, or the place where a key without one begins. -/
  | key
  /-- The colon in front of a value. -/
  | colon
  | anchor (name : List Char)
  | alias (name : List Char)
  | tag (name : TagName)
  | scalar (style : Style) (text : List Char)
  deriving DecidableEq, Repr

end PocketCalc.Yaml
