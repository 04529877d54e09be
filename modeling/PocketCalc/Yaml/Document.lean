import PocketCalc.Yaml.Layout
import PocketCalc.Yaml.Node

/-!
# Documents

How tokens form a document. A text may hold one document, in front of which directives
may stand if the line `---` follows them, and behind which lines `...` may stand.

* `Reader` — the tokens to come, with the anchors and handles that are known.
* `node` — a node, with the functions for its parts.
* `Document` — a whole document, in which aliases have a meaning.
* `Document.ofTokens?` — the document that tokens form, `Document.ofText?` — that of a text.
-/

namespace PocketCalc.Yaml

/-! ## Reading -/

/-- What is still to be read, and what is known by now. -/
structure Reader where
  tokens : List Token
  /-- The names of anchors with their numbers. -/
  anchors : List (List Char × Nat) := []
  /-- The handles of tags with their prefixes. -/
  handles : List (List Char × Octets) := []

/-- To read something, if the tokens allow it. -/
abbrev Reading := StateT Reader Option

/-- The next token. -/
def peek : Reading (Option Token) :=
  return (← get).tokens.head?

/-- To pass over the next token. -/
def advance : Reading Unit :=
  modify fun r => { r with tokens := r.tokens.tail }

/-- One of some tokens comes next. -/
def isBefore (ts : List Token) : Reading Bool :=
  return (← peek).any ts.contains

/-- To pass over a token if it comes next, and whether it does. -/
def pass (t : Token) : Reading Bool := do
  let found ← isBefore [t]
  if found then advance
  return found

/-! ## Properties -/

/-- The name of an anchor, if one comes next. -/
def anchorName : Reading (Option (List Char)) := do
  match ← peek with
  | some (.anchor name) => advance; return some name
  | _ => return none

/-- A tag as it is written, if one comes next. -/
def tagName : Reading (Option TagName) := do
  match ← peek with
  | some (.tag name) => advance; return some name
  | _ => return none

/-- An anchor gets the number of names known so far, and a name that is used again
stands for the new node from now on. -/
def anchorNumber (name : List Char) : Reading Nat := do
  let r ← get
  let number := r.anchors.length
  set { r with anchors := (name, number) :: r.anchors.filter (·.1 != name) }
  return number

/-- A tag with the prefix that its handle stands for. -/
def tagOf (name : TagName) : Reading Octets := do
  if name.handle = [] then return name.suffix
  match (← get).handles.lookup name.handle with
  | some tagPrefix => return tagPrefix ++ name.suffix
  | none => failure

/-- The properties of the next node: an anchor and a tag in either order, each of
which may be missing. -/
def properties : Reading Properties := do
  let front ← anchorName
  let tag ← tagName
  let anchor ← if front.isSome then pure front else anchorName
  return { anchor := ← anchor.mapM anchorNumber, tag := ← tag.mapM tagOf }

/-! ## Nodes -/

/-- Where a node stands. -/
inductive Site where
  /-- Inside brackets. -/
  | brackets
  /-- Behind a dash, or as the whole document. -/
  | block
  /-- As a key or a value of a mapping by indentation, where the dashes of a sequence
  need no indentation of their own. -/
  | field
  deriving DecidableEq, Repr

mutual

/-- A node. -/
def node : Nat → Site → Reading Node
  | 0, _ => failure
  | fuel + 1, site => do
    if let some (.alias name) ← peek then
      advance
      match (← get).anchors.lookup name with
      | some number => return .alias number
      | none => failure
    let p ← properties
    match ← peek, site with
    | some (.scalar style text), _ =>
      advance
      return .scalar p style text
    | some .openSquare, _ =>
      advance
      return .sequence p (← squareItems fuel)
    | some .openCurly, _ =>
      advance
      return .mapping p (← curlyEntries fuel)
    | some .dash, .field => return .sequence p (← dashItems fuel)
    | some .dashes, .block | some .dashes, .field =>
      advance
      let items ← dashItems fuel
      if ← pass .blockEnd then return .sequence p items else failure
    | some .fields, .block | some .fields, .field =>
      advance
      return .mapping p (← fieldEntries fuel)
    | _, _ => if p = {} then failure else return .blank p

/-- A node, or nothing in front of some tokens. -/
def nodeBefore : Nat → List Token → Site → Reading Node
  | 0, _, _ => failure
  | fuel + 1, ends, site => do
    if ← isBefore ends then return .empty else node fuel site

/-- The items of a sequence by dashes. -/
def dashItems : Nat → Reading (List Node)
  | 0 => failure
  | fuel + 1 => do
    if ← pass .dash then
      let item ← nodeBefore fuel [.dash, .key, .colon, .blockEnd] .block
      return item :: (← dashItems fuel)
    else return []

/-- The entries of a mapping by indentation, up to its end. -/
def fieldEntries : Nat → Reading (List (Node × Node))
  | 0 => failure
  | fuel + 1 => do
    if ← pass .blockEnd then return []
    else if ← pass .key then
      let key ← nodeBefore fuel [.key, .colon, .blockEnd] .field
      let value ←
        if ← pass .colon then nodeBefore fuel [.key, .colon, .blockEnd] .field else pure .empty
      return (key, value) :: (← fieldEntries fuel)
    else failure

/-- The value behind a key inside brackets, in front of some tokens. -/
def bracketValue : Nat → List Token → Reading Node
  | 0, _ => failure
  | fuel + 1, ends => do
    if ← pass .colon then nodeBefore fuel ends .brackets else return .empty

/-- The items of a sequence in brackets, up to its end. A key with a value is a mapping
of its own. Where a key is left out behind its question mark, the token that shows it
is passed over. -/
def squareItems : Nat → Reading (List Node)
  | 0 => failure
  | fuel + 1 => do
    if ← pass .closeSquare then return []
    let item ←
      if ← pass .key then
        let key ←
          if ← isBefore [.colon, .comma, .closeSquare] then advance; pure .empty
          else node fuel .brackets
        let value ← bracketValue fuel [.comma, .closeSquare]
        pure (.mapping {} [(key, value)])
      else node fuel .brackets
    if ← pass .comma then return item :: (← squareItems fuel)
    else if ← pass .closeSquare then return [item]
    else failure

/-- The entries of a mapping in brackets, up to its end. -/
def curlyEntries : Nat → Reading (List (Node × Node))
  | 0 => failure
  | fuel + 1 => do
    if ← pass .closeCurly then return []
    let entry ←
      if ← pass .key then
        let key ← nodeBefore fuel [.colon, .comma, .closeCurly] .brackets
        pure (key, ← bracketValue fuel [.comma, .closeCurly])
      else pure (← node fuel .brackets, .empty)
    if ← pass .comma then return entry :: (← curlyEntries fuel)
    else if ← pass .closeCurly then return [entry]
    else failure

end

/-! ## Documents -/

/-- The directives in front of a document, which state a known version at most once
and a prefix for each handle at most once. -/
def directives? (isVersioned : Bool) (handles : List (List Char × Octets)) :
    List Token → Option (List (List Char × Octets) × List Token)
  | .directive (.version major minor) :: rest =>
    if !isVersioned ∧ major = 1 ∧ (minor = 1 ∨ minor = 2) then directives? true handles rest
    else none
  | .directive (.handle name tagPrefix) :: rest =>
    if (handles.lookup name).isNone then directives? isVersioned ((name, tagPrefix) :: handles) rest
    else none
  | rest => some (handles, rest)

/-- The handles that every document knows, unless a directive gives them a prefix. -/
def knownHandles : List (List Char × Octets) :=
  [(['!'], octets "!"), (['!', '!'], octets "tag:yaml.org,2002:")]

/-- A document begins with a directive or with the line `---`. -/
def isExplicit : List Token → Bool
  | .directive _ :: _ => true
  | .opening :: _ => true
  | _ => false

/-- The node behind the line `---`, where nothing need stand. -/
def explicitNode (fuel : Nat) : Reading Node := do
  let r ← get
  if r.tokens = [] ∨ r.tokens.head? = some .closing ∨ isExplicit r.tokens then return .empty
  else node fuel .block

/-- A whole document. -/
structure Document where
  /-- What it says, with all its parts. -/
  root : Node

namespace Document

/-- A part of a document, or the part that it stands for. -/
def resolve? (d : Document) : Node → Option Node
  | .alias anchor => d.root.lastAnchored? anchor
  | n => some n

/-- The document that tokens form. No token needs more than three calls, one inside
the other. -/
def ofTokens? (tokens : List Token) : Option Document := do
  let fuel := 3 * tokens.length + 3
  if tokens = [] then return ⟨.empty⟩
  let (root, r) ←
    if isExplicit tokens then do
      let (handles, tokens) ← directives? false [] tokens
      if tokens.head? ≠ some .opening then none
      (explicitNode fuel).run { tokens := tokens.tail, handles := handles ++ knownHandles }
    else (node fuel .block).run { tokens, handles := knownHandles }
  if r.tokens.all (· = .closing) then some ⟨root⟩ else none

/-- The document of a text, which holds at most one. -/
def ofText? (text : List Char) : Option Document := do
  ofTokens? (← tokens? (← spots? text))

end Document

end PocketCalc.Yaml
