import PocketCalc.Proofs.Grammar

/-!
# Completing any tokens

Completion is defined for every sequence of tokens, also for those that cannot be entered. The
dangling tail goes first, and what stays is the longest front that ends with a value. Then the
groups that are open in it are closed. A closing paren with nothing open is not counted, so the
number of open groups is the difference of the two kinds of paren only where no group is closed
before it is opened (`Nested.parenBalance_add_count`).

* `LongestFront` — the longest front of a sequence that ends with a value.
* `Nested` — no group is closed before it is opened.
* `completion_closes_longest_front` — **which tokens cannot be completed, and what the completion
  of all others is.**
-/

namespace PocketCalc

/-! ## Fronts that end with a value -/

/-- Every token is an operator, a function or an opening paren. -/
def OnlyDangling (ts : List Token) : Prop :=
  ∀ t ∈ ts, (∃ op, t = .operator op) ∨ (∃ f, t = .function f) ∨ t = .openParen

/-- The last token is a number, a constant or a closing paren. -/
def EndsWithValue (ts : List Token) : Prop :=
  ∃ front t, ts = front ++ [t] ∧
    ((∃ literal, t = .number literal) ∨ (∃ k, t = .constant k) ∨ t = .closeParen)

/-- What stands at the front of the tokens and ends with a value, and is the longest that
does. -/
structure LongestFront (ts kept : List Token) : Prop where
  atFront : kept <+: ts
  endsWithValue : EndsWithValue kept
  longest : ∀ front, front <+: ts → EndsWithValue front → front <+: kept

theorem Token.isDangling_iff {t : Token} :
    t.isDangling = true ↔
      (∃ op, t = .operator op) ∨ (∃ f, t = .function f) ∨ t = .openParen := by
  cases t <;> simp [isDangling]

theorem Token.endsValue_iff {t : Token} :
    t.endsValue = true ↔
      (∃ literal, t = .number literal) ∨ (∃ k, t = .constant k) ∨ t = .closeParen := by
  cases t <;> simp [endsValue]

theorem onlyDangling_iff {ts : List Token} :
    OnlyDangling ts ↔ ts.rdropWhile Token.isDangling = [] := by
  simp only [OnlyDangling, ← Token.isDangling_iff, List.rdropWhile_eq_nil_iff]

theorem endsWithValue_concat {front : List Token} {t : Token} :
    EndsWithValue (front ++ [t]) ↔ t.endsValue = true := by
  rw [Token.endsValue_iff]
  constructor
  · rintro ⟨front', t', heq, ht'⟩
    obtain ⟨-, rfl⟩ := List.append_singleton_inj.mp heq
    exact ht'
  · intro ht
    exact ⟨front, t, rfl, ht⟩

/-- A front that ends with a value keeps clear of the dangling tail. -/
theorem EndsWithValue.front_rdropWhile {front ts : List Token} (h : EndsWithValue front)
    (hfront : front <+: ts) : front <+: ts.rdropWhile Token.isDangling := by
  induction ts using List.reverseRecOn with
  | nil => exact hfront
  | append_singleton shorter t ih =>
      cases ht : t.endsValue with
      | true =>
          rw [rdropWhile_of_endsValue shorter ht]
          exact hfront
      | false =>
          rw [List.rdropWhile_concat_pos _ _ _ (by simp [Token.isDangling_eq_not_endsValue, ht])]
          rcases List.prefix_concat_iff.mp hfront with rfl | hshorter
          · rw [endsWithValue_concat, ht] at h
            cases h
          · exact ih hshorter

/-- **What completion keeps** is the longest front that ends with a value. -/
theorem longestFront_rdropWhile {ts : List Token} (h : ts.rdropWhile Token.isDangling ≠ []) :
    LongestFront ts (ts.rdropWhile Token.isDangling) where
  atFront := List.rdropWhile_prefix Token.isDangling ts
  endsWithValue := by
    have hlast := List.rdropWhile_last_not Token.isDangling ts h
    rw [← List.dropLast_append_getLast h, endsWithValue_concat]
    simpa [Token.isDangling_eq_not_endsValue] using hlast
  longest := by
    intro front hfront hvalue
    exact hvalue.front_rdropWhile hfront

/-! ## Nesting -/

/-- No group is closed before it is opened. -/
def Nested (ts : List Token) : Prop :=
  ∀ front, front <+: ts → front.count .closeParen ≤ front.count .openParen

theorem Nested.of_front {front ts : List Token} (h : Nested ts) (hfront : front <+: ts) :
    Nested front := by
  intro shorter hshorter
  exact h shorter (hshorter.trans hfront)

/-- The counts of all tokens are the only new ones behind one token more. -/
theorem Nested.concat {ts : List Token} {t : Token} (h : Nested ts)
    (hcount : (ts ++ [t]).count .closeParen ≤ (ts ++ [t]).count .openParen) :
    Nested (ts ++ [t]) := by
  intro front hfront
  rcases List.prefix_concat_iff.mp hfront with rfl | hfront
  · exact hcount
  · exact h front hfront

/-- **The balance is the difference** of the two kinds of paren where no group is closed before
it is opened. -/
theorem Nested.parenBalance_add_count {ts : List Token} (h : Nested ts) :
    parenBalance ts + ts.count .closeParen = ts.count .openParen := by
  induction ts using List.reverseRecOn with
  | nil => rfl
  | append_singleton front t ih =>
      have hfront := ih (h.of_front (List.prefix_append front [t]))
      have hcount := h (front ++ [t]) List.prefix_rfl
      rw [parenBalance_concat]
      cases t with
      | openParen =>
          simp [depthAfter]
          omega
      | closeParen =>
          -- the count of the whole says that there is a group to close
          simp [depthAfter] at hcount ⊢
          omega
      | number literal => simpa [depthAfter] using hfront
      | operator op => simpa [depthAfter] using hfront
      | function f => simpa [depthAfter] using hfront
      | constant k => simpa [depthAfter] using hfront

/-- Behind `)(2` a group is open, though there are as many parens of one kind as of the other. -/
example : parenBalance [.closeParen, .openParen, .number ['2']] = 1 := rfl

/-! ## Closing -/

/-- Each closing paren takes one off the depth, as long as there is any. -/
theorem foldl_depthAfter_closeParens (d n : Nat) :
    (List.replicate n Token.closeParen).foldl depthAfter d = d - n := by
  induction n generalizing d with
  | zero => rfl
  | succ n ih =>
      rw [List.replicate_succ, List.foldl_cons, ih, depthAfter]
      omega

/-- As many closing parens as groups are open leave none open, whatever was closed before. -/
theorem parenBalance_closed (kept : List Token) :
    parenBalance (kept ++ List.replicate (parenBalance kept) .closeParen) = 0 := by
  rw [parenBalance_append, foldl_depthAfter_closeParens, Nat.sub_self]

theorem EndsWithValue.append_closeParens {kept : List Token} (h : EndsWithValue kept) (n : Nat) :
    EndsWithValue (kept ++ List.replicate n .closeParen) := by
  cases n with
  | zero => simpa using h
  | succ n =>
      rw [List.replicate_succ', ← List.append_assoc, endsWithValue_concat]
      rfl

/-- What ends with a value and leaves no group open is complete already. -/
theorem EndsWithValue.finalize_self {ts : List Token} (h : EndsWithValue ts)
    (hclosed : parenBalance ts = 0) : finalize ts = .ok ts := by
  obtain ⟨front, t, rfl, ht⟩ := h
  exact finalize_of_closed (Token.endsValue_iff.mpr ht) hclosed

/-- No group is closed too early by closing those that are open. -/
theorem Nested.append_closeParens {kept : List Token} (h : Nested kept) {n : Nat}
    (hn : n ≤ parenBalance kept) : Nested (kept ++ List.replicate n .closeParen) := by
  induction n with
  | zero => simpa using h
  | succ n ih =>
      have hcount := h.parenBalance_add_count
      have hshorter := ih (by omega)
      rw [List.replicate_succ', ← List.append_assoc]
      refine hshorter.concat ?_
      simp [List.count_replicate]
      omega

/-- All groups are closed: there are as many parens of one kind as of the other. -/
theorem Nested.count_closed {kept us : List Token} (h : Nested kept)
    (hus : us = kept ++ List.replicate (parenBalance kept) .closeParen) :
    us.count .closeParen = us.count .openParen := by
  have hcount := h.parenBalance_add_count
  subst hus
  simp [List.count_replicate]
  omega

/-! ## Completion -/

/-- **Completion keeps the longest front that ends with a value, and closes it.** It fails exactly
where every token is an operator, a function or an opening paren. All other tokens, well formed
or not, have a longest front that ends with a number, a constant or a closing paren, and their
completion is that front with as many closing parens behind it as it leaves groups open. It
leaves none open and is its own completion. Where no group is closed before it is opened, the
same is true of the completion, and it closes every group. -/
theorem completion_closes_longest_front (ts : List Token) :
    ((∃ e, finalize ts = .error e) ↔ OnlyDangling ts) ∧
    (¬ OnlyDangling ts → ∃ kept us, LongestFront ts kept ∧
      us = kept ++ List.replicate (parenBalance kept) .closeParen ∧
      finalize ts = .ok us ∧
      parenBalance us = 0 ∧
      finalize us = .ok us ∧
      (Nested ts → Nested us ∧ us.count .closeParen = us.count .openParen)) := by
  refine ⟨?_, ?_⟩
  · simp only [finalize_eq_error_iff, OnlyDangling, ← Token.isDangling_iff, exists_and_left,
      exists_eq, and_true]
  · intro hsome
    have hkept : ts.rdropWhile Token.isDangling ≠ [] := fun h => hsome (onlyDangling_iff.mpr h)
    have hlongest := longestFront_rdropWhile hkept
    refine ⟨_, _, hlongest, rfl, ?_, parenBalance_closed _, ?_, ?_⟩
    · rw [finalize_eq, if_neg (by simpa using hkept)]
    · exact (hlongest.endsWithValue.append_closeParens _).finalize_self (parenBalance_closed _)
    · intro hnested
      have hfront := hnested.of_front hlongest.atFront
      exact ⟨hfront.append_closeParens le_rfl, hfront.count_closed rfl⟩

/-- It applies to `sin((2)+cos(`, which is completed to `sin((2))`. -/
theorem completion_of_open_sine :
    let ts : List Token := [.function .sin, .openParen, .openParen, .number ['2'], .closeParen,
      .operator .add, .function .cos, .openParen]
    let us : List Token := [.function .sin, .openParen, .openParen, .number ['2'], .closeParen,
      .closeParen]
    ¬ OnlyDangling ts ∧ Nested ts ∧ finalize ts = .ok us ∧ finalize us = .ok us ∧ Nested us ∧
      us.count .closeParen = us.count .openParen := by
  intro ts us
  have hsome : ¬ OnlyDangling ts := by
    intro h
    have hnumber := h (.number ['2']) (by decide)
    simp at hnumber
  have hnested : Nested ts := by
    intro front hfront
    have hall : ∀ n ≤ ts.length, (ts.take n).count .closeParen ≤ (ts.take n).count .openParen := by
      decide
    rw [List.prefix_iff_eq_take.mp hfront]
    exact hall front.length hfront.length_le
  obtain ⟨kept, us', -, -, hcomplete, -, hself, hbalanced⟩ :=
    (completion_closes_longest_front ts).2 hsome
  have hus : finalize ts = .ok us := rfl
  obtain rfl : us = us' := Except.ok.inj (hus.symm.trans hcomplete)
  exact ⟨hsome, hnested, hus, hself, hbalanced hnested⟩

end PocketCalc
