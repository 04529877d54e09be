import PocketCalc.Evaluation
import PocketCalc.Proofs.Grammar

/-!
# Expression trees

The meaning of an expression is a tree: values at the leaves, operators and functions
at the nodes. `Reading A n ts t` says that the tokens `ts` spell the tree `t` at level
`n` of the grammar that knows how operators bind:

* level 1 — sums and differences, grouping from the left;
* level 2 — products and quotients, grouping from the left;
* level 3 — powers, grouping from the right;
* level 4 — primaries.

Every expression whose literals can be read has such a tree (`Phrase.exists_reading`);
that it has only one is a consequence of the conversion to postfix.
-/

namespace PocketCalc

variable {α : Type}

/-- The tree of an expression over values of type `α`. A group leaves no node of its
own. -/
inductive Tree (α : Type) where
  | value (v : α)
  | operator (op : Operator) (left right : Tree α)
  | function (f : Func) (argument : Tree α)
  deriving DecidableEq, Repr

namespace Tree

/-- The nodes in the order left, right, root. -/
def postorder : Tree α → List (Postfix.Item α)
  | value v => [.value v]
  | operator op a b => a.postorder ++ b.postorder ++ [.operator op]
  | function f a => a.postorder ++ [.function f]

/-- The value of a tree, by recursion. -/
def eval (A : Arithmetic α) : Tree α → α
  | value v => v
  | operator op a b => A.operator op (a.eval A) (b.eval A)
  | function f a => A.function f (a.eval A)

/-- Some quotient in the tree has a zero on its right, or some reciprocal a zero as
its argument. -/
def dividesByZero (A : Arithmetic α) : Tree α → Bool
  | value _ => false
  | operator op a b =>
      a.dividesByZero A || b.dividesByZero A || (op = .divide && A.isZero (b.eval A))
  | function f a => a.dividesByZero A || (f = .inv && A.isZero (a.eval A))

end Tree

/-! ## Levels -/

namespace Operator

/-- The level an operator stands on. -/
def level : Operator → Nat
  | add | subtract => 1
  | multiply | divide => 2
  | power => 3

/-- The lowest level a left operand may stand on: the operator's own where it groups
from the left. -/
def leftLevel : Operator → Nat
  | add | subtract => 1
  | multiply | divide => 2
  | power => 4

/-- The lowest level a right operand may stand on: the operator's own where it groups
from the right. -/
def rightLevel : Operator → Nat
  | add | subtract => 2
  | multiply | divide => 3
  | power => 3

theorem level_le_leftLevel (op : Operator) : op.level ≤ op.leftLevel := by
  cases op <;> decide

theorem level_le_rightLevel (op : Operator) : op.level ≤ op.rightLevel := by
  cases op <;> decide

theorem leftLevel_le (op : Operator) : op.leftLevel ≤ 4 := by
  cases op <;> decide

theorem rightLevel_le (op : Operator) : op.rightLevel ≤ 4 := by
  cases op <;> decide

/-- An operator that cannot be a right operand of another may take the other's
expression as its left operand. -/
theorem leftLevel_le_of_lt_rightLevel {first second : Operator}
    (h : second.level < first.rightLevel) : second.leftLevel ≤ first.level := by
  cases first <;> cases second <;> revert h <;> decide

end Operator

/-! ## Readings -/

/-- The tokens spell the tree at a level: with operators of this level and above
outside of groups. -/
inductive Reading (A : Arithmetic α) : Nat → List Token → Tree α → Prop
  | number {literal v} : A.literal? literal = some v →
      Reading A 4 [.number literal] (.value v)
  | constant (c : Constant) : Reading A 4 [.constant c] (.value (A.constant c))
  | group {ts t} : Reading A 1 ts t → Reading A 4 (.openParen :: ts ++ [.closeParen]) t
  | application (f : Func) {ts t} : Reading A 1 ts t →
      Reading A 4 (.function f :: .openParen :: ts ++ [.closeParen]) (.function f t)
  | operator (op : Operator) {as bs a b} : Reading A op.leftLevel as a →
      Reading A op.rightLevel bs b →
      Reading A op.level (as ++ .operator op :: bs) (.operator op a b)
  | loosen {n ts t} : Reading A (n + 1) ts t → Reading A n ts t

variable {A : Arithmetic α}

/-- What can be read at a level can be read at every lower one. -/
theorem Reading.mono {n m : Nat} {ts : List Token} {t : Tree α} (h : Reading A n ts t)
    (hm : m ≤ n) : Reading A m ts t := by
  induction hm with
  | refl => exact h
  | step _ ih => exact ih h.loosen

/-- An operand and an operator go in front of anything that can be read. Where the
expression behind cannot be the right operand as a whole, its leftmost part is: the
induction goes down the left spine of the tree. -/
theorem Reading.prepend {n : Nat} {es : List Token} {t : Tree α} (h : Reading A n es t)
    (op : Operator) {as : List Token} {a : Tree α} (ha : Reading A op.leftLevel as a) :
    ∃ t', Reading A (min n op.level) (as ++ .operator op :: es) t' := by
  have hwhole : ∀ {es : List Token} {t : Tree α} {n : Nat}, Reading A n es t →
      op.rightLevel ≤ n → ∃ t', Reading A (min n op.level) (as ++ .operator op :: es) t' := by
    intro es t n h hn
    exact ⟨_, (Reading.operator op ha (h.mono hn)).mono (Nat.min_le_right _ _)⟩
  -- primaries are right operands of every operator
  induction h with
  | number hv => exact hwhole (.number hv) op.rightLevel_le
  | constant c => exact hwhole (.constant c) op.rightLevel_le
  | group h _ => exact hwhole (.group h) op.rightLevel_le
  | application f h _ => exact hwhole (.application f h) op.rightLevel_le
  | @operator op₂ xs ys x y hx hy ihx _ =>
      by_cases hn : op.rightLevel ≤ op₂.level
      · exact hwhole (.operator op₂ hx hy) hn
      · -- `op₂` binds no tighter, so that `op` goes into the left operand of `op₂`
        have hleft := Operator.leftLevel_le_of_lt_rightLevel (Nat.lt_of_not_le hn)
        obtain ⟨t', ht'⟩ := ihx
        have hx' := ht'.mono (Nat.le_min.mpr ⟨Nat.le_refl _, hleft⟩)
        refine ⟨.operator op₂ t' y, ?_⟩
        have hjoined := (Reading.operator op₂ hx' hy).mono (Nat.min_le_left _ op.level)
        simpa using hjoined
  | loosen _ ih =>
      obtain ⟨t', ht'⟩ := ih
      exact ⟨t', ht'.mono (by omega)⟩

/-- The level of a kind of phrase. -/
def Category.level : Category → Nat
  | expression => 1
  | primary => 4

/-- **Every phrase whose literals can be read has a tree.** -/
theorem Phrase.exists_reading {k : Category} {ts : List Token} (h : Phrase k ts)
    (hread : ∀ literal, .number literal ∈ ts → (A.literal? literal).isSome) :
    ∃ t, Reading A k.level ts t := by
  induction h with
  | number literal =>
      obtain ⟨v, hv⟩ := Option.isSome_iff_exists.mp (hread literal (by simp))
      exact ⟨.value v, .number hv⟩
  | constant c => exact ⟨_, .constant c⟩
  | group _ ih =>
      obtain ⟨t, ht⟩ := ih fun literal hl => hread literal (by simp [hl])
      exact ⟨t, .group ht⟩
  | application f _ ih =>
      obtain ⟨t, ht⟩ := ih fun literal hl => hread literal (by simp [hl])
      exact ⟨.function f t, .application f ht⟩
  | single _ ih =>
      obtain ⟨t, ht⟩ := ih hread
      exact ⟨t, ht.mono (by decide)⟩
  | chain op _ _ ihp ihe =>
      obtain ⟨p, hp⟩ := ihp fun literal hl => hread literal (by simp [hl])
      obtain ⟨e, he⟩ := ihe fun literal hl => hread literal (by simp [hl])
      obtain ⟨t, ht⟩ := he.prepend op (hp.mono op.leftLevel_le)
      exact ⟨t, ht.mono (by cases op <;> decide)⟩

end PocketCalc
