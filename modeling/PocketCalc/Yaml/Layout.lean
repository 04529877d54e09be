import PocketCalc.Yaml.Token

/-!
# Layout

How the lines of a document fall into tokens. A block begins with the first dash or
key in a column to the right of the block around it and ends with the first line to
the left of that column. A key without a question mark is known only by the colon
behind it, on the same line and within 1024 octets; then the token for it is put in
where it began.

* `Layout` — the tokens so far, the blocks around the next one, and the places where a
  key may have begun.
* `Layout.next?` — the next token.
* `tokens?` — the tokens of a document.
-/

namespace PocketCalc.Yaml

/-- A place where a key may have begun. -/
structure KeyStart where
  /-- The number of tokens in front of it. -/
  index : Nat
  line : Nat
  column : Nat
  /-- The octets in front of it on its line. -/
  offset : Nat
  /-- It begins a line of a mapping, where nothing but a key may stand. -/
  isRequired : Bool
  deriving DecidableEq, Repr

/-- The key that has begun there may have its colon here. -/
def KeyStart.reaches (s : Spot) (k : KeyStart) : Bool :=
  k.line == s.line && s.offset ≤ k.offset + 1024

/-- What has been read of a document and what has not. -/
structure Layout where
  tokens : Array Token := #[]
  rest : List Spot
  /-- For each block, from the innermost on, the least column of what is inside its
  parts: one more than its own column. -/
  floors : List Nat := []
  /-- A key without a question mark, or a dash, may come next. -/
  mayBegin : Bool := true
  /-- Where a key inside the innermost brackets, or outside all brackets, may have begun. -/
  keyStart : Option KeyStart := none
  /-- The same for the brackets around, from the innermost on; there is one entry for
  each pair of brackets around the next token. -/
  outerStarts : List (Option KeyStart) := []

namespace Layout

/-! ## State -/

/-- The next token stands inside brackets. -/
def isBracketed (l : Layout) : Bool :=
  !l.outerStarts.isEmpty

/-- The least column of what is inside the innermost block. -/
def floor (l : Layout) : Nat :=
  l.floors.headD 0

/-- One token more. -/
def push (t : Token) (l : Layout) : Layout :=
  { l with tokens := l.tokens.push t }

/-- The blocks have ended whose parts have their least column to the right of another
column. -/
def closeBlocks (column : Nat) (l : Layout) : Layout :=
  let closed := l.floors.takeWhile (column < ·)
  { l with
    tokens := closed.foldl (fun tokens _ => tokens.push .blockEnd) l.tokens
    floors := l.floors.drop closed.length }

/-- A block has begun in a column, unless it is that of the innermost block or there
are brackets around. Its first token stands at an index. -/
def openBlock (column index : Nat) (t : Token) (l : Layout) : Layout :=
  if !l.isBracketed ∧ l.floor ≤ column then
    { l with tokens := l.tokens.insertIdxIfInBounds index t, floors := (column + 1) :: l.floors }
  else l

/-- No key has begun that goes on here. -/
def dropKey? (l : Layout) : Option Layout :=
  if l.keyStart.any (·.isRequired) then none else some { l with keyStart := none }

/-- A key may begin here. -/
def markKey? (s : Spot) (l : Layout) : Option Layout := do
  if !l.mayBegin then return l
  let isRequired := !l.isBracketed && l.floor == s.column + 1
  let l ← l.dropKey?
  return { l with keyStart := some ⟨l.tokens.size, s.line, s.column, s.offset, isRequired⟩ }

/-- The keys that have begun and may have their colon here. -/
def forgetKeys? (s : Spot) (l : Layout) : Option Layout :=
  let starts := l.keyStart :: l.outerStarts
  if starts.any fun start => start.any fun k => k.isRequired && !KeyStart.reaches s k then none
  else
    let starts := starts.map (Option.filter (KeyStart.reaches s))
    some { l with keyStart := starts.headD none, outerStarts := starts.tail }

/-! ## Space -/

/-- What follows after blanks, line breaks and comments, starting inside a comment or
outside, and whether a key may begin there: outside brackets it may on a new line, and
where it may, no tab stands in front of it. A byte order mark at the start of a line
is passed over but takes up its column. -/
def skipFrom (bracketed mayBegin comment : Bool) : List Spot → Bool × List Spot
  | [] => (mayBegin, [])
  | s :: rest =>
    if isBreak s.char then skipFrom bracketed (mayBegin || !bracketed) false rest
    else if comment || s.char == '#' then skipFrom bracketed mayBegin true rest
    else if s.char == ' ' || (s.char == '\t' && (bracketed || !mayBegin))
        || (s.char == '\ufeff' && s.column == 0) then
      skipFrom bracketed mayBegin false rest
    else (mayBegin, s :: rest)

/-- The space in front of the next token is passed over. -/
def skipSpace (l : Layout) : Layout :=
  let (mayBegin, rest) := skipFrom l.isBracketed l.mayBegin false l.rest
  { l with mayBegin, rest }

/-! ## Tokens between documents -/

/-- All blocks have ended, and so has a key. -/
def endBlocks? (l : Layout) : Option Layout :=
  (l.closeBlocks 0).dropKey?

/-- A line that begins or ends the document. -/
def rule? (t : Token) (rest : List Spot) (l : Layout) : Option Layout := do
  let l ← l.endBlocks?
  return { l.push t with rest, mayBegin := false }

/-- A directive, from behind its percent sign on. -/
def directive? (rest : List Spot) (l : Layout) : Option Layout := do
  let l ← l.endBlocks?
  let (directive, rest) ← Yaml.directive? rest
  return { l.push (.directive directive) with rest, mayBegin := false }

/-! ## Marks -/

/-- A bracket that opens. -/
def openBracket? (t : Token) (s : Spot) (rest : List Spot) (l : Layout) : Option Layout := do
  let l ← l.markKey? s
  return { l.push t with
    rest
    mayBegin := true
    keyStart := none
    outerStarts := l.keyStart :: l.outerStarts }

/-- A bracket that closes. -/
def closeBracket? (t : Token) (rest : List Spot) (l : Layout) : Option Layout := do
  let l ← l.dropKey?
  return { l.push t with
    rest
    mayBegin := false
    keyStart := l.outerStarts.head?.getD none
    outerStarts := l.outerStarts.tail }

/-- A comma. -/
def comma? (rest : List Spot) (l : Layout) : Option Layout := do
  let l ← l.dropKey?
  return { l.push .comma with rest, mayBegin := true }

/-- A mark of a block stands here: it begins one if it is in a column of its own. -/
def blockMark? (block mark : Token) (s : Spot) (rest : List Spot) (l : Layout) : Option Layout :=
  if l.isBracketed ∨ l.mayBegin then
    let l := l.openBlock s.column l.tokens.size block
    some { l.push mark with rest, mayBegin := !l.isBracketed }
  else none

/-- The colon behind a key that began without a question mark. -/
def colonAfter (k : KeyStart) (rest : List Spot) (l : Layout) : Layout :=
  let l := { l with tokens := l.tokens.insertIdxIfInBounds k.index .key, keyStart := none }
  { (l.openBlock k.column k.index .fields).push .colon with rest, mayBegin := false }

/-! ## Texts -/

/-- A name or a text that a key may begin with. -/
def keyPart? (s : Spot) (taken : Option (Token × List Spot)) (l : Layout) : Option Layout := do
  let l ← l.markKey? s
  let (t, rest) ← taken
  return { l.push t with rest, mayBegin := false }

/-- A plain scalar. A key may begin on the line behind it. -/
def plainScalar? (s : Spot) (rest : List Spot) (l : Layout) : Option Layout := do
  if !startsPlain l.isBracketed (s :: rest) then none
  let (text, behind, rest) ← plain? ⟨l.isBracketed, l.floor⟩ {} (s :: rest)
  let l ← l.keyPart? s (some (.scalar .plain text, rest))
  return { l with mayBegin := behind.breaks ≠ [] }

/-- A scalar by lines. -/
def lines? (style : Style) (rest : List Spot) (l : Layout) : Option Layout := do
  let l ← l.dropKey?
  let (text, rest) ← blockScalar? style l.floor rest
  return { l.push (.scalar style text) with rest, mayBegin := true }

/-! ## The whole -/

/-- The next token, which begins with a character. -/
def next? (s : Spot) (rest : List Spot) (l : Layout) : Option Layout :=
  let scalar := fun (text, rest) => (Token.scalar .quoted text, rest)
  if s.column = 0 ∧ s.char = '%' then l.directive? rest
  else if atRule '-' (s :: rest) then l.rule? .opening (rest.drop 2)
  else if atRule '.' (s :: rest) then l.rule? .closing (rest.drop 2)
  else
    match s.char with
    | '[' => l.openBracket? .openSquare s rest
    | '\x7b' => l.openBracket? .openCurly s rest
    | ']' => l.closeBracket? .closeSquare rest
    | '\x7d' => l.closeBracket? .closeCurly rest
    | ',' => l.comma? rest
    | '*' => l.keyPart? s ((anchorName? rest).map fun (name, rest) => (.alias name, rest))
    | '&' => l.keyPart? s ((anchorName? rest).map fun (name, rest) => (.anchor name, rest))
    | '!' =>
      l.keyPart? s ((tagName? l.isBracketed (s :: rest)).map fun (tag, rest) => (.tag tag, rest))
    | '\'' => l.keyPart? s ((singleQuoted? {} rest).map scalar)
    | '"' => l.keyPart? s ((doubleQuoted? (.text {}) rest).map scalar)
    | '|' => if l.isBracketed then none else l.lines? .literal rest
    | '>' => if l.isBracketed then none else l.lines? .folded rest
    | '-' =>
      if atGap rest then do
        let l ← (← l.blockMark? .dashes .dash s rest).dropKey?
        return { l with mayBegin := true }
      else l.plainScalar? s rest
    | '?' =>
      if l.isBracketed ∨ atGap rest then do (← l.blockMark? .fields .key s rest).dropKey?
      else l.plainScalar? s rest
    | ':' =>
      if l.isBracketed ∨ atGap rest then
        match l.keyStart with
        | some k => some (l.colonAfter k rest)
        | none => l.blockMark? .fields .colon s rest
      else l.plainScalar? s rest
    | _ => l.plainScalar? s rest

/-- The tokens up to the end, each of which takes up a character. -/
def finish? : Nat → Layout → Option (Array Token)
  | 0, _ => none
  | fuel + 1, l =>
    let l := l.skipSpace
    match l.rest with
    | [] => l.endBlocks?.map Layout.tokens
    | s :: rest => do
      let l ← l.forgetKeys? s
      let l := if l.isBracketed then l else l.closeBlocks (s.column + 1)
      finish? fuel (← l.next? s rest)

end Layout

/-- The tokens of a document. -/
def tokens? (s : List Spot) : Option (List Token) :=
  (Layout.finish? (s.length + 1) { rest := s }).map Array.toList

end PocketCalc.Yaml
