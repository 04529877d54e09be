import PocketCalc.Yaml.Token

/-!
# Nodes

What a document says: a tree of scalars, sequences and mappings, in which an alias may
stand for a node that has an anchor.

* `Node` — a part of a document.
* `Node.lastAnchored?` — the node that an anchor names.
-/

namespace PocketCalc.Yaml

/-- What stands in front of a node. -/
structure Properties where
  /-- The number of its anchor. -/
  anchor : Option Nat := none
  /-- Its tag, with the prefix that its handle stands for. -/
  tag : Option Octets := none
  deriving DecidableEq, Repr

/-- A part of a document. -/
inductive Node where
  /-- The node whose anchor has a number. -/
  | alias (anchor : Nat)
  | scalar (properties : Properties) (style : Style) (text : List Char)
  | sequence (properties : Properties) (items : List Node)
  | mapping (properties : Properties) (entries : List (Node × Node))

namespace Node

/-- What stands where nothing is written behind some properties. -/
def blank (p : Properties) : Node :=
  .scalar p .plain []

/-- What stands where nothing is written. -/
def empty : Node :=
  blank {}

mutual

/-- Among a node and its parts the last one to begin whose anchor has a number. -/
def lastAnchored? (anchor : Nat) : Node → Option Node
  | .alias _ => none
  | .scalar p style text => if p.anchor = some anchor then some (.scalar p style text) else none
  | .sequence p items =>
    (lastAmong? anchor items).or (if p.anchor = some anchor then some (.sequence p items) else none)
  | .mapping p entries =>
    (lastAmongEntries? anchor entries).or
      (if p.anchor = some anchor then some (.mapping p entries) else none)

/-- The same among the items of a sequence. -/
def lastAmong? (anchor : Nat) : List Node → Option Node
  | [] => none
  | item :: items => (lastAmong? anchor items).or (lastAnchored? anchor item)

/-- The same among the keys and values of a mapping. -/
def lastAmongEntries? (anchor : Nat) : List (Node × Node) → Option Node
  | [] => none
  | (key, value) :: entries =>
    ((lastAmongEntries? anchor entries).or (lastAnchored? anchor value)).or
      (lastAnchored? anchor key)

end

end Node

end PocketCalc.Yaml
