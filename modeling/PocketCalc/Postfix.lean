import PocketCalc.Arithmetic

/-!
# Postfix sequences

An infix expression is turned into a sequence in which every operator and
function stands behind its operands. Operators wait on a stack until one arrives
that binds no tighter; a group holds its operators back until it is closed, and
the function in front of the group follows right behind it.

* `finalize` — an entered expression made complete: the dangling tail goes, open
  groups are closed.
* `Postfix.ofTokens` — the conversion.
* `Postfix.text` — a postfix sequence as text.
-/

namespace PocketCalc

variable {α : Type}

/-! ## Completion -/

/-- An expression without its dangling tail, every open group closed. -/
def finalize (tokens : List Token) : Except CalcError (List Token) :=
  let kept := (tokens.reverse.dropWhile Token.isDangling).reverse
  if kept.isEmpty then .error (.malformedInput .nothingToEvaluate)
  else .ok (kept ++ List.replicate (parenBalance kept) .closeParen)

namespace Postfix

/-! ## Conversion -/

inductive Item (α : Type) where
  | value (v : α)
  | operator (op : Operator)
  | function (f : Func)
  deriving DecidableEq, Repr

/-- What waits for its operands. -/
inductive Held where
  | operator (op : Operator)
  | function (f : Func)
  | openParen
  deriving DecidableEq, Repr

namespace Held

/-- What is written when an entry leaves the stack. An open paren leaves no trace. -/
def items : Held → List (Item α)
  | operator op => [.operator op]
  | function f => [.function f]
  | openParen => []

/-- The entry leaves before the incoming operator is put on the stack: it binds
tighter, or as tight and the operator groups from the left. -/
def yieldsTo : Held → Operator → Bool
  | openParen, _ => false
  | function _, _ => true
  | operator top, incoming =>
    if incoming.isRightAssociative then incoming.precedence < top.precedence
    else incoming.precedence ≤ top.precedence

end Held

/-- What an incoming operator releases, and the stack that stays. -/
def release (op : Operator) : List Held → List (Item α) × List Held
  | [] => ([], [])
  | h :: hs =>
    if h.yieldsTo op then (h.items ++ (release op hs).1, (release op hs).2) else ([], h :: hs)

/-- What the end of a group releases, and the stack that stays: everything down
to the open paren, and the function in front of it. -/
def closeGroup : List Held → List (Item α) × List Held
  | [] => ([], [])
  | .openParen :: .function f :: hs => ([.function f], hs)
  | .openParen :: hs => ([], hs)
  | h :: hs => (h.items ++ (closeGroup hs).1, (closeGroup hs).2)

/-- What the end of the input releases. -/
def drain (held : List Held) : List (Item α) :=
  held.flatMap Held.items

/-- The postfix sequence of the tokens, with a stack of what is still held. -/
def convert (A : Arithmetic α) : List Token → List Held → Except CalcError (List (Item α))
  | [], held => .ok (drain held)
  | .number literal :: ts, held =>
    match A.literal? literal with
    | some v => (convert A ts held).map (.value v :: ·)
    | none => .error (.malformedInput (.invalidLiteral literal))
  | .constant c :: ts, held => (convert A ts held).map (.value (A.constant c) :: ·)
  | .function f :: ts, held => convert A ts (.function f :: held)
  | .openParen :: ts, held => convert A ts (.openParen :: held)
  | .operator op :: ts, held =>
    (convert A ts (.operator op :: (release (α := α) op held).2)).map ((release op held).1 ++ ·)
  | .closeParen :: ts, held =>
    (convert A ts (closeGroup (α := α) held).2).map ((closeGroup held).1 ++ ·)

/-- The postfix sequence of an infix expression. Fails at the first number that
cannot be read. -/
def ofTokens (A : Arithmetic α) (tokens : List Token) : Except CalcError (List (Item α)) :=
  convert A tokens []

/-! ## Text -/

/-- An entry as text: a value with its shortest digits, an operator in ASCII, a
function by name. -/
def Item.text : Item Float → List Char
  | .value v => Decimal.positionalText v
  | .operator op => [op.ascii]
  | .function f => f.name.toList

/-- The entries of a sequence, a space between two. -/
def text (items : List (Item Float)) : List Char :=
  (items.map Item.text).intersperse [' '] |>.flatten

end Postfix

end PocketCalc
