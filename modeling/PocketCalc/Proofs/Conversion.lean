import PocketCalc.Proofs.ExpressionTree

/-!
# Conversion and evaluation compute the tree

The conversion to postfix is followed along a reading of the tokens. Reading a part
of an expression at level `n` writes some entries and leaves operators of level `n` or
above on the stack, on top of whatever was there; entries and operators together are
the postorder of the part's tree (`Reading.convert`). What lies below has to be
`Firm`: it must not give way to the operators of the part.

* `Reading.ofTokens` — the postfix sequence is the postorder of the tree.
* `Reading.unique` — so an expression has one tree, as a postorder determines its tree
  (`Tree.postorder_injective`).
* `Machine.run_postorder`, `Machine.skipsNone_postorder` — the machine computes the
  value of the tree on top of any stack and skips nothing.
* `conversion_evaluates_tree` — the two together.
-/

namespace PocketCalc

variable {α : Type}

/-! ## What stays on the stack -/

namespace Postfix

/-- An operator gives way exactly to those whose left operand it may be. -/
theorem Held.yieldsTo_operator (top op : Operator) :
    (Held.operator top).yieldsTo op = decide (op.leftLevel ≤ top.level) := by
  cases top <;> cases op <;> rfl

/-- Nothing on top of the stack gives way to an operator of level `n` or above, and no
function waits there for its group. -/
def Firm (n : Nat) (held : List Held) : Prop :=
  ∀ h ∈ held.head?, (∀ f, h ≠ .function f) ∧ ∀ op : Operator, n ≤ op.level → h.yieldsTo op = false

theorem Firm.nil (n : Nat) : Firm n [] := by
  simp [Firm]

theorem Firm.mono {n m : Nat} {held : List Held} (h : Firm n held) (hm : n ≤ m) :
    Firm m held :=
  fun top htop => ⟨(h top htop).1, fun op hop => (h top htop).2 op (Nat.le_trans hm hop)⟩

/-- An open paren gives way to no operator. -/
theorem Firm.openParen (n : Nat) (held : List Held) : Firm n (.openParen :: held) := by
  simp [Firm, Held.yieldsTo]

/-- An operator does not give way to those of its right operand. -/
theorem Firm.operator (op : Operator) (held : List Held) :
    Firm op.rightLevel (.operator op :: held) := by
  intro h hh
  obtain rfl : Held.operator op = h := by simpa using hh
  refine ⟨by simp, ?_⟩
  intro next hnext
  rw [Held.yieldsTo_operator]
  cases op <;> cases next <;> revert hnext <;> decide

/-- A firm stack releases nothing. -/
theorem Firm.release {op : Operator} {held : List Held} (h : Firm op.level held) :
    release (α := α) op held = ([], held) := by
  cases held with
  | nil => rfl
  | cons top held =>
      have hstay := (h top (by simp)).2 op (Nat.le_refl _)
      simp [Postfix.release, hstay]

/-- Operators that give way are released from the top of the stack. -/
theorem release_append {op : Operator} {pending : List Operator}
    (h : ∀ top ∈ pending, op.leftLevel ≤ top.level) (held : List Held) :
    release (α := α) op (pending.map .operator ++ held) =
      (pending.map .operator ++ (release op held).1, (release (α := α) op held).2) := by
  induction pending with
  | nil => rfl
  | cons top pending ih =>
      have htop : (Held.operator top).yieldsTo op = true := by
        rw [Held.yieldsTo_operator]
        exact decide_eq_true (h top (by simp))
      have hrest := ih fun t ht => h t (List.mem_cons_of_mem _ ht)
      simp [Postfix.release, htop, hrest, Held.items]

/-- The end of a group releases the operators down to its paren. -/
theorem closeGroup_append (pending : List Operator) (held : List Held) :
    closeGroup (α := α) (pending.map .operator ++ held) =
      (pending.map .operator ++ (closeGroup held).1, (closeGroup (α := α) held).2) := by
  induction pending with
  | nil => rfl
  | cons top pending ih => simp [closeGroup, ih, Held.items]

/-- At the paren the group ends, unless a function stands in front of it. -/
theorem Firm.closeGroup {n : Nat} {held : List Held} (h : Firm n held) :
    closeGroup (α := α) (.openParen :: held) = ([], held) := by
  cases held with
  | nil => rfl
  | cons top held =>
      cases top with
      | operator op => rfl
      | function f => exact absurd rfl ((h _ rfl).1 f)
      | openParen => rfl

theorem drain_operators (pending : List Operator) :
    drain (α := α) (pending.map .operator) = pending.map .operator := by
  induction pending with
  | nil => rfl
  | cons op pending ih => simpa [drain, Held.items] using ih

end Postfix

/-- Entries put in front twice are put in front together. -/
theorem map_append_map {β ε : Type} (x : Except ε (List β)) (as bs : List β) :
    (x.map (bs ++ ·)).map (as ++ ·) = x.map (as ++ bs ++ ·) := by
  cases x <;> simp [Except.map]

/-! ## Postfix is the postorder -/

open Postfix in
/-- **One part of an expression.** Its entries and the operators it leaves on the
stack make up the postorder of its tree; what was on the stack stays below. -/
theorem Reading.convert {A : Arithmetic α} {n : Nat} {ts : List Token} {t : Tree α}
    (h : Reading A n ts t) : ∀ held, Firm n held →
      ∃ (out : List (Item α)) (pending : List Operator),
      (∀ op ∈ pending, n ≤ op.level) ∧ out ++ pending.map .operator = t.postorder ∧
      ∀ rest, Postfix.convert A (ts ++ rest) held =
        (Postfix.convert A rest (pending.map .operator ++ held)).map (out ++ ·) := by
  induction h with
  | @number literal v hv =>
      intro held _
      refine ⟨[.value v], [], by simp, rfl, fun rest => ?_⟩
      simp [Postfix.convert, hv]
  | constant c =>
      intro held _
      refine ⟨[.value (A.constant c)], [], by simp, rfl, fun rest => ?_⟩
      simp [Postfix.convert]
  | @group ts t _ ih =>
      intro held hfirm
      obtain ⟨out, pending, _, heq, hconvert⟩ := ih (.openParen :: held) (.openParen 1 held)
      refine ⟨t.postorder, [], by simp, by simp, fun rest => ?_⟩
      -- the closing paren releases the operators of the group, and only those
      have hgroup := hconvert (.closeParen :: rest)
      simp only [Postfix.convert, closeGroup_append, hfirm.closeGroup, List.append_nil,
        map_append_map, heq] at hgroup
      simpa [Postfix.convert] using hgroup
  | @application f ts t _ ih =>
      intro held _
      obtain ⟨out, pending, _, heq, hconvert⟩ :=
        ih (.openParen :: .function f :: held) (.openParen 1 _)
      refine ⟨(Tree.function f t).postorder, [], by simp, by simp, fun rest => ?_⟩
      -- here the closing paren releases the function as well, whatever is below it
      have hgroup := hconvert (.closeParen :: rest)
      simp only [Postfix.convert, closeGroup_append, closeGroup, map_append_map,
        ← List.append_assoc, heq] at hgroup
      simpa [Postfix.convert, Tree.postorder] using hgroup
  | @operator op as bs a b _ _ iha ihb =>
      intro held hfirm
      obtain ⟨out₁, pending₁, hlevel₁, heq₁, hconvert₁⟩ :=
        iha held (hfirm.mono op.level_le_leftLevel)
      obtain ⟨out₂, pending₂, hlevel₂, heq₂, hconvert₂⟩ :=
        ihb (.operator op :: held) (.operator op held)
      -- the left operand's operators give way to `op`, what is below them does not
      have hrelease : release (α := α) op (pending₁.map .operator ++ held) =
          (pending₁.map .operator, held) := by
        rw [release_append hlevel₁, hfirm.release, List.append_nil]
      refine ⟨out₁ ++ pending₁.map .operator ++ out₂, pending₂ ++ [op], ?_, ?_, fun rest => ?_⟩
      · intro top htop
        rcases List.mem_append.mp htop with htop | htop
        · exact Nat.le_trans op.level_le_rightLevel (hlevel₂ top htop)
        · rw [List.mem_singleton.mp htop]
      · rw [heq₁, List.map_append, ← List.append_assoc, List.append_assoc _ out₂, heq₂]
        rfl
      · have hop := hconvert₁ (.operator op :: (bs ++ rest))
        simp only [Postfix.convert, hrelease, hconvert₂ rest, map_append_map] at hop
        simpa using hop
  | loosen _ ih =>
      intro held hfirm
      obtain ⟨out, pending, hlevel, heq, hconvert⟩ := ih held (hfirm.mono (Nat.le_succ _))
      exact ⟨out, pending, fun op hop => Nat.le_of_succ_le (hlevel op hop), heq, hconvert⟩

/-- **The postfix sequence of an expression is the postorder of its tree.** -/
theorem Reading.ofTokens {A : Arithmetic α} {n : Nat} {ts : List Token} {t : Tree α}
    (h : Reading A n ts t) : Postfix.ofTokens A ts = .ok t.postorder := by
  obtain ⟨out, pending, _, heq, hconvert⟩ := h.convert [] (.nil n)
  have hwhole := hconvert []
  rw [List.append_nil, List.append_nil] at hwhole
  rw [Postfix.ofTokens, hwhole, ← heq]
  simp [Postfix.convert, Postfix.drain_operators, Except.map]

/-! ## One tree -/

/-- The trees that a postfix sequence builds on a stack of trees. -/
def rebuild : List (Postfix.Item α) → List (Tree α) → List (Tree α)
  | [], stack => stack
  | .value v :: items, stack => rebuild items (.value v :: stack)
  | .operator op :: items, b :: a :: stack => rebuild items (.operator op a b :: stack)
  | .function f :: items, a :: stack => rebuild items (.function f a :: stack)
  | _ :: items, stack => rebuild items stack

theorem rebuild_postorder (t : Tree α) (items : List (Postfix.Item α)) (stack : List (Tree α)) :
    rebuild (t.postorder ++ items) stack = rebuild items (t :: stack) := by
  induction t generalizing items stack with
  | value v => rfl
  | operator op a b iha ihb => simp [Tree.postorder, iha, ihb, rebuild]
  | function f a ih => simp [Tree.postorder, ih, rebuild]

/-- A postorder determines its tree. -/
theorem Tree.postorder_injective {s t : Tree α} (h : s.postorder = t.postorder) : s = t := by
  have hs := rebuild_postorder s [] []
  have ht := rebuild_postorder t [] []
  rw [h, ht] at hs
  exact (List.cons.inj hs).1.symm

/-- An expression has one tree at most. -/
theorem Reading.unique {A : Arithmetic α} {n m : Nat} {ts : List Token} {s t : Tree α}
    (hs : Reading A n ts s) (ht : Reading A m ts t) : s = t := by
  have heq := hs.ofTokens.symm.trans ht.ofTokens
  exact Tree.postorder_injective (Except.ok.inj heq)

/-! ## The machine -/

namespace Machine

variable (A : Arithmetic α)

theorem run_append (m : Machine α) (as bs : List (Postfix.Item α)) :
    run A m (as ++ bs) = run A (run A m as) bs :=
  List.foldl_append

/-- The machine computes a tree on top of any stack. -/
theorem run_postorder (t : Tree α) (m : Machine α) :
    run A m t.postorder = ⟨t.eval A :: m.stack, m.zeroDivisor || t.dividesByZero A⟩ := by
  induction t generalizing m with
  | value v => simp [run, step, Tree.postorder, Tree.eval, Tree.dividesByZero]
  | operator op a b iha ihb =>
      rw [Tree.postorder, run_append, run_append, iha, ihb]
      simp [run, step, Tree.eval, Tree.dividesByZero, Arithmetic.dividesByZero, Bool.or_assoc]
  | function f a ih =>
      rw [Tree.postorder, run_append, ih]
      simp [run, step, Tree.eval, Tree.dividesByZero, Arithmetic.invertsZero, Bool.or_assoc]

/-- An entry lacks an operand and is skipped. -/
def Skips (m : Machine α) : Postfix.Item α → Prop
  | .value _ => False
  | .function _ => m.stack.length < 1
  | .operator _ => m.stack.length < 2

/-- No entry of the sequence is skipped. -/
def SkipsNone (m : Machine α) : List (Postfix.Item α) → Prop
  | [] => True
  | i :: items => ¬ m.Skips i ∧ (m.step A i).SkipsNone items

theorem skipsNone_append (m : Machine α) (as bs : List (Postfix.Item α)) :
    m.SkipsNone A (as ++ bs) ↔ m.SkipsNone A as ∧ (run A m as).SkipsNone A bs := by
  induction as generalizing m with
  | nil => simp [SkipsNone, run]
  | cons i as ih => simp [SkipsNone, ih, run, and_assoc]

/-- No entry of a postorder is skipped, on any stack. -/
theorem skipsNone_postorder (t : Tree α) (m : Machine α) : m.SkipsNone A t.postorder := by
  induction t generalizing m with
  | value v => simp [SkipsNone, Skips, Tree.postorder]
  | operator op a b iha ihb =>
      rw [Tree.postorder, skipsNone_append, skipsNone_append, run_append, run_postorder,
        run_postorder]
      exact ⟨⟨iha m, ihb _⟩, by simp [SkipsNone, Skips]⟩
  | function f a ih =>
      rw [Tree.postorder, skipsNone_append, run_postorder]
      exact ⟨ih m, by simp [SkipsNone, Skips]⟩

end Machine

/-- The value of a tree's postorder. -/
theorem evaluate_postorder (A : Arithmetic α) (t : Tree α) :
    evaluate A t.postorder = checkFinite A (t.dividesByZero A) (t.eval A) := by
  simp [evaluate, Machine.run_postorder]

/-! ## Conversion and evaluation together -/

/-- **An expression is evaluated as its tree.** Whatever the operators, functions and
literals stand for, an expression has exactly one tree, its postfix sequence is the
postorder of that tree, and the machine leaves nothing but the value of the tree on
the stack. That value is the result if it is finite; if it is not, the error tells
whether something in the tree was divided by zero. -/
theorem conversion_evaluates_tree (A : Arithmetic α) {ts : List Token}
    (hts : Phrase .expression ts)
    (hread : ∀ literal, .number literal ∈ ts → (A.literal? literal).isSome) :
    ∃ t, Reading A 1 ts t ∧ (∀ s, Reading A 1 ts s → s = t) ∧
      Postfix.ofTokens A ts = .ok t.postorder ∧
      Machine.SkipsNone A {} t.postorder ∧
      Machine.run A {} t.postorder = ⟨[t.eval A], t.dividesByZero A⟩ ∧
      evaluate A t.postorder =
        if A.isFinite (t.eval A) then .ok (t.eval A)
        else if t.dividesByZero A then .error .divisionByZero
        else .error .domainError := by
  obtain ⟨t, ht⟩ := hts.exists_reading hread
  refine ⟨t, ht, fun s hs => hs.unique ht, ht.ofTokens, ?_, ?_, ?_⟩
  · exact Machine.skipsNone_postorder A t {}
  · simpa using Machine.run_postorder A t {}
  · rw [evaluate_postorder, checkFinite]

/-- The theorem applies to `6÷(2−2)^π`. -/
theorem conversion_evaluates_quotient :
    let ts : List Token := [.number ['6'], .operator .divide, .openParen, .number ['2'],
      .operator .subtract, .number ['2'], .closeParen, .operator .power, .constant .pi]
    let A := Arithmetic.binary64 .degrees
    ∃ t, Reading A 1 ts t ∧ (∀ s, Reading A 1 ts s → s = t) ∧
      Postfix.ofTokens A ts = .ok t.postorder ∧
      Machine.SkipsNone A {} t.postorder ∧
      Machine.run A {} t.postorder = ⟨[t.eval A], t.dividesByZero A⟩ ∧
      evaluate A t.postorder =
        if A.isFinite (t.eval A) then .ok (t.eval A)
        else if t.dividesByZero A then .error .divisionByZero
        else .error .domainError := by
  apply conversion_evaluates_tree
  · have hdifference : Phrase .expression [.number ['2'], .operator .subtract, .number ['2']] :=
      .chain .subtract (.number _) (.single (.number _))
    have hpower := Phrase.chain .power (.group hdifference) (.single (.constant .pi))
    exact .chain .divide (.number ['6']) hpower
  · intro literal hl
    have hdigit : literal = ['6'] ∨ literal = ['2'] := by simpa using hl
    rcases hdigit with rfl | rfl <;> decide +kernel

end PocketCalc
