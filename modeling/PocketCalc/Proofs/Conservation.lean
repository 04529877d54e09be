import PocketCalc.Proofs.Conversion

/-!
# Conversion keeps every entry

Tokens need not make up an expression: parens may not match, operators may stand side by
side, a function may lack its group. Conversion moves what they stand for to the output all
the same. Values go there at once, everything else by way of the stack; and whichever rule
takes entries off the stack writes what the end of the input would have written. So what is
written and what is still held are together what was read (`convert_front`).

* `conversion_conserves` — **nothing is lost and nothing is duplicated**, and conversion
  fails at the first number that cannot be read and nowhere else.
* `closing_agrees_with_drain` — **closing the open groups changes nothing**: the end of the
  input writes what their closing parens would have released.
-/

namespace PocketCalc

variable {α : Type}

/-! ## What tokens stand for -/

namespace Token

/-- The value that a token stands for, if it stands for one. -/
def value? (A : Arithmetic α) : Token → Option α
  | number literal => A.literal? literal
  | constant c => some (A.constant c)
  | operator _ | function _ | openParen | closeParen => none

/-- The entry of a postfix sequence that a token becomes. Parens leave no trace. -/
def item? (A : Arithmetic α) : Token → Option (Postfix.Item α)
  | number literal => (A.literal? literal).map .value
  | constant c => some (.value (A.constant c))
  | operator op => some (.operator op)
  | function f => some (.function f)
  | openParen | closeParen => none

/-- Any token but a number that cannot be read. -/
def isReadable (A : Arithmetic α) : Token → Bool
  | number literal => (A.literal? literal).isSome
  | _ => true

end Token

/-- Tokens without a number that cannot be read. -/
def Readable (A : Arithmetic α) (ts : List Token) : Prop :=
  ∀ literal, .number literal ∈ ts → (A.literal? literal).isSome = true

variable {A : Arithmetic α} {ts : List Token}

theorem Readable.nil : Readable A [] := by
  intro literal hl
  cases hl

theorem Readable.tail {t : Token} (h : Readable A (t :: ts)) : Readable A ts := by
  intro literal hl
  exact h literal (List.mem_cons_of_mem _ hl)

/-- Tokens can be read, or there is a first number that cannot. -/
theorem readable_or_first (A : Arithmetic α) (ts : List Token) :
    Readable A ts ∨ ∃ front literal rest, ts = front ++ .number literal :: rest ∧
      Readable A front ∧ A.literal? literal = none := by
  cases hfind : ts.find? fun t => !t.isReadable A with
  | none =>
      left
      intro literal hl
      have hread := List.find?_eq_none.mp hfind _ hl
      simpa [Token.isReadable, Option.isSome_iff_ne_none] using hread
  | some t =>
      right
      obtain ⟨ht, front, rest, hsplit, hfront⟩ := List.find?_eq_some_iff_append.mp hfind
      cases t with
      | number literal =>
          refine ⟨front, literal, rest, hsplit, ?_, by simpa [Token.isReadable] using ht⟩
          intro earlier hearlier
          simpa [Token.isReadable] using hfront _ hearlier
      | _ => simp [Token.isReadable] at ht

namespace Postfix

/-- The value of an entry that is one. -/
def Item.value? : Item α → Option α
  | .value v => some v
  | .operator _ | .function _ => none

/-! ## Taking entries off the stack -/

/-- An operator releases what the end of the input would write first. -/
theorem drain_release (op : Operator) (held : List Held) :
    (release (α := α) op held).1 ++ drain (release (α := α) op held).2 = drain held := by
  fun_induction release (α := α) op held with
  | case1 => rfl
  | case2 top held _ ih =>
      rw [List.append_assoc, ih]
      rfl
  | case3 top held _ => rfl

/-- So does the end of a group: its paren, which is dropped here, would have left no trace. -/
theorem drain_closeGroup (held : List Held) :
    (closeGroup (α := α) held).1 ++ drain (closeGroup (α := α) held).2 = drain held := by
  fun_induction closeGroup (α := α) held with
  | case1 => rfl
  | case2 f held => rfl
  | case3 held _ => rfl
  | case4 top held _ _ ih =>
      rw [List.append_assoc, ih]
      rfl

/-- No values wait on the stack. -/
theorem values_drain (held : List Held) : (drain (α := α) held).filterMap Item.value? = [] := by
  induction held with
  | nil => rfl
  | cons top held ih =>
      show (top.items ++ drain held).filterMap Item.value? = []
      rw [List.filterMap_append, ih]
      cases top <;> rfl

/-- Nor among what is written first of it. -/
theorem values_of_drain {out : List (Item α)} {held held' : List Held}
    (h : out ++ drain held' = drain held) : out.filterMap Item.value? = [] := by
  have hvalues := values_drain (α := α) held
  rw [← h, List.filterMap_append] at hvalues
  exact (List.append_eq_nil_iff.mp hvalues).1

/-! ## From the tokens to the output -/

/-- Writing nothing. -/
theorem map_nil_append {ε β : Type} (x : Except ε (List β)) : x.map ([] ++ ·) = x := by
  cases x <;> rfl

/-- **One token.** It makes conversion write some entries and leaves a stack for the tokens
that follow; entries and stack together have gained what the token stands for. -/
theorem convert_step {t : Token} (ht : t.isReadable A = true) (held : List Held) :
    ∃ (out : List (Item α)) (held' : List Held),
      (∀ rest, convert A (t :: rest) held = (convert A rest held').map (out ++ ·)) ∧
      (out ++ drain held').Perm ((t.item? A).toList ++ drain held) ∧
      out.filterMap Item.value? = (t.value? A).toList := by
  cases t with
  | number literal =>
      obtain ⟨v, hv⟩ := Option.isSome_iff_exists.mp ht
      refine ⟨[.value v], held, ?_, ?_, ?_⟩
      · intro rest
        simp [convert, hv]
      · simp [Token.item?, hv]
      · simp [Token.value?, hv, Item.value?]
  | constant c => exact ⟨[.value (A.constant c)], held, fun _ => rfl, .refl _, rfl⟩
  | function f =>
      refine ⟨[], .function f :: held, ?_, .refl _, rfl⟩
      intro rest
      rw [map_nil_append, convert]
  | openParen =>
      refine ⟨[], .openParen :: held, ?_, .refl _, rfl⟩
      intro rest
      rw [map_nil_append, convert]
  | operator op =>
      have hdrain := drain_release (α := α) op held
      refine ⟨(release op held).1, .operator op :: (release (α := α) op held).2,
        fun _ => rfl, ?_, values_of_drain hdrain⟩
      -- the operator goes on the stack behind what it releases
      show ((release op held).1 ++ Item.operator op :: drain (release (α := α) op held).2).Perm
        (Item.operator op :: drain held)
      rw [← hdrain]
      exact List.perm_middle
  | closeParen =>
      have hdrain := drain_closeGroup (α := α) held
      refine ⟨(closeGroup held).1, (closeGroup (α := α) held).2, fun _ => rfl, ?_,
        values_of_drain hdrain⟩
      rw [hdrain]
      exact .refl _

/-- **A part of the tokens.** What it makes conversion write and what it leaves on the stack
are together what was there and what was read, the values in their order. -/
theorem convert_front (hts : Readable A ts) (held : List Held) :
    ∃ (out : List (Item α)) (held' : List Held),
      (∀ rest, convert A (ts ++ rest) held = (convert A rest held').map (out ++ ·)) ∧
      (out ++ drain held').Perm (ts.filterMap (Token.item? A) ++ drain held) ∧
      out.filterMap Item.value? = ts.filterMap (Token.value? A) := by
  induction ts generalizing held with
  | nil =>
      refine ⟨[], held, ?_, .refl _, rfl⟩
      intro rest
      rw [map_nil_append, List.nil_append]
  | cons t ts ih =>
      have ht : t.isReadable A = true := by
        cases t with
        | number literal => exact hts literal (by simp)
        | _ => rfl
      obtain ⟨first, held₁, hstep, hperm₁, hvalues₁⟩ := convert_step ht held
      obtain ⟨out, held', hfront, hperm, hvalues⟩ := ih hts.tail held₁
      refine ⟨first ++ out, held', ?_, ?_, ?_⟩
      · intro rest
        rw [List.cons_append, hstep, hfront, map_append_map]
      · have hitems : (t :: ts).filterMap (Token.item? A) =
            (t.item? A).toList ++ ts.filterMap (Token.item? A) := by
          cases h : t.item? A <;> simp [h]
        calc first ++ out ++ drain held'
            = first ++ (out ++ drain held') := List.append_assoc _ _ _
          List.Perm _ (first ++ (ts.filterMap (Token.item? A) ++ drain held₁)) :=
              hperm.append_left first
          List.Perm _ (ts.filterMap (Token.item? A) ++ (first ++ drain held₁)) :=
              List.perm_append_comm_assoc _ _ _
          List.Perm _ (ts.filterMap (Token.item? A) ++ ((t.item? A).toList ++ drain held)) :=
              hperm₁.append_left _
          List.Perm _ ((t :: ts).filterMap (Token.item? A) ++ drain held) := by
              rw [hitems, List.append_assoc]
              exact List.perm_append_comm_assoc _ _ _
      · rw [List.filterMap_append, hvalues₁, hvalues]
        cases h : t.value? A <;> simp [h]

/-- Tokens that can be read are converted, -/
theorem exists_convert (hts : Readable A ts) (held : List Held) :
    ∃ items, convert A ts held = .ok items ∧
      items.Perm (ts.filterMap (Token.item? A) ++ drain held) ∧
      items.filterMap Item.value? = ts.filterMap (Token.value? A) := by
  obtain ⟨out, held', hfront, hperm, hvalues⟩ := convert_front hts held
  refine ⟨out ++ drain held', ?_, hperm, ?_⟩
  · have hall := hfront []
    rw [List.append_nil] at hall
    rw [hall]
    rfl
  · rw [List.filterMap_append, values_drain, List.append_nil, hvalues]

/-- and others up to the first number that cannot be read. -/
theorem convert_of_unreadable {literal : List Char} (hts : Readable A ts)
    (hread : A.literal? literal = none) (rest : List Token) (held : List Held) :
    convert A (ts ++ .number literal :: rest) held =
      .error (.malformedInput (.invalidLiteral literal)) := by
  obtain ⟨out, held', hfront, -, -⟩ := convert_front hts held
  rw [hfront, convert, hread]
  rfl

/-- A number that cannot be read, wherever it stands, makes conversion fail. -/
theorem exists_invalidLiteral {literal : List Char} (hread : A.literal? literal = none)
    (hl : .number literal ∈ ts) :
    ∃ first, ofTokens A ts = .error (.malformedInput (.invalidLiteral first)) := by
  rcases readable_or_first A ts with hts | ⟨front, first, rest, rfl, hfront, hfirst⟩
  · have hsome := hts literal hl
    rw [hread] at hsome
    cases hsome
  · exact ⟨first, convert_of_unreadable hfront hfirst rest []⟩

/-- A postfix sequence has the values of its tokens in their order, and an entry for each
token but the parens. -/
theorem ofTokens_conserves {items : List (Item α)} (h : ofTokens A ts = .ok items) :
    items.filterMap Item.value? = ts.filterMap (Token.value? A) ∧
      items.Perm (ts.filterMap (Token.item? A)) := by
  rcases readable_or_first A ts with hts | ⟨front, literal, rest, rfl, hfront, hread⟩
  · obtain ⟨items', hitems, hperm, hvalues⟩ := exists_convert hts []
    obtain rfl : items' = items := Except.ok.inj (hitems.symm.trans h)
    refine ⟨hvalues, ?_⟩
    simpa [drain] using hperm
  · rw [ofTokens, convert_of_unreadable hfront hread] at h
    cases h

/-! ## Closing parens at the end -/

/-- Closing parens with nothing behind them release what the end of the input would. -/
theorem convert_closeParens (A : Arithmetic α) (n : Nat) (held : List Held) :
    convert A (List.replicate n .closeParen) held = .ok (drain held) := by
  induction n generalizing held with
  | zero => rfl
  | succ n ih =>
      rw [List.replicate_succ, convert, ih]
      exact congrArg Except.ok (drain_closeGroup held)

/-- **They add nothing to any tokens**, nor to their failure. -/
theorem convert_append_closeParens (A : Arithmetic α) (ts : List Token) (n : Nat)
    (held : List Held) :
    convert A (ts ++ List.replicate n .closeParen) held = convert A ts held := by
  rcases readable_or_first A ts with hts | ⟨front, literal, rest, rfl, hfront, hread⟩
  · obtain ⟨out, held', hstep, -, -⟩ := convert_front hts held
    have hend := hstep []
    rw [List.append_nil] at hend
    rw [hend, hstep, convert_closeParens]
    rfl
  · rw [List.append_assoc, List.cons_append, convert_of_unreadable hfront hread,
      convert_of_unreadable hfront hread]

end Postfix

/-! ## Whole expressions -/

open Postfix in
/-- **Conversion loses and duplicates nothing**, whatever the tokens are. It fails only with
the first number that cannot be read; else the output has the values in the order of their
tokens, every operator and every function once for each of its tokens, and nothing else. -/
theorem conversion_conserves (A : Arithmetic α) (tokens : List Token) :
    (∀ e, ofTokens A tokens = .error e ↔
      ∃ front literal rest, tokens = front ++ .number literal :: rest ∧ Readable A front ∧
        A.literal? literal = none ∧ e = .malformedInput (.invalidLiteral literal)) ∧
    (∀ items, ofTokens A tokens = .ok items →
      items.filterMap Item.value? = tokens.filterMap (Token.value? A) ∧
      items.Perm (tokens.filterMap (Token.item? A))) := by
  constructor
  · intro e
    constructor
    · intro herror
      rcases readable_or_first A tokens with hts | ⟨front, literal, rest, rfl, hfront, hread⟩
      · obtain ⟨items, hitems, -, -⟩ := exists_convert hts []
        rw [ofTokens, hitems] at herror
        cases herror
      · refine ⟨front, literal, rest, rfl, hfront, hread, ?_⟩
        rw [ofTokens, convert_of_unreadable hfront hread] at herror
        exact (Except.error.inj herror).symm
    · rintro ⟨front, literal, rest, rfl, hfront, hread, rfl⟩
      exact convert_of_unreadable hfront hread rest []
  · intro items hok
    exact ofTokens_conserves hok

/-- It applies to `sin 2) + × (π`, which has no group for its function, a paren too many on
either side and two operators in a row. -/
theorem conversion_conserves_unmatched :
    let A := Arithmetic.binary64 .radians
    let tokens : List Token := [.function .sin, .number ['2'], .closeParen, .operator .add,
      .operator .multiply, .openParen, .constant .pi]
    let items : List (Postfix.Item Float) := [.value 2, .function .sin,
      .value (Constant.value .pi), .operator .multiply, .operator .add]
    Postfix.ofTokens A tokens = .ok items ∧
      items.filterMap Postfix.Item.value? = tokens.filterMap (Token.value? A) ∧
      items.Perm (tokens.filterMap (Token.item? A)) := by
  intro A tokens items
  have hitems : Postfix.ofTokens A tokens = .ok items := by decide +kernel
  exact ⟨hitems, (conversion_conserves A tokens).2 items hitems⟩

/-- **Closing the groups agrees with draining them.** Closing parens behind an expression
change nothing about its postfix sequence, nor about the failure to find one, whether there
are groups for them to close or not. So an expression completed before conversion gives the
sequence of its tokens up to the last that does not dangle, with their groups left open. -/
theorem closing_agrees_with_drain (A : Arithmetic α) (tokens : List Token) :
    (∀ n, Postfix.ofTokens A (tokens ++ List.replicate n .closeParen) =
      Postfix.ofTokens A tokens) ∧
    (finalize tokens >>= Postfix.ofTokens A) =
      if (tokens.rdropWhile Token.isDangling).isEmpty then
        .error (.malformedInput .nothingToEvaluate)
      else Postfix.ofTokens A (tokens.rdropWhile Token.isDangling) := by
  constructor
  · intro n
    exact Postfix.convert_append_closeParens A tokens n []
  · rw [finalize_eq]
    split
    · rfl
    · exact Postfix.convert_append_closeParens A _ _ []

end PocketCalc
