import Mathlib.Algebra.Ring.Nat
import PocketCalc.Proofs.EventEffects

/-!
# Backspace empties the entry

Every press of backspace takes something away, though neither the tokens nor the buffer get
shorter each time: a number that is opened again leaves the tokens and fills the buffer. It
counts one as a token besides its characters, so that the parts of the entry, tokens and
characters together, get fewer with each press, whatever the digit limit cuts off.

* `size` — the parts that the entry consists of.
* `backspace_cases` — a press is ignored, or something comes off.
* `size_run_backspace` — each press takes one part off at least.
* `backspace_empties` — **as many presses as there are parts leave nothing.**
-/

namespace PocketCalc

/-! ## The parts of the entry -/

/-- A token is one part, and the characters of a number are parts besides. -/
def Token.size : Token → Nat
  | .number literal => 1 + literal.length
  | _ => 1

theorem Token.size_pos (t : Token) : 0 < t.size := by
  unfold size
  split <;> omega

namespace Calculator

/-- The characters of the number being typed and the parts of the tokens. -/
def size (c : Calculator) : Nat :=
  c.buffer.length + (c.tokens.map Token.size).sum

variable {c : Calculator}

theorem size_eq (c : Calculator) : c.size = c.buffer.length + (c.entered.map Token.size).sum := by
  rw [size, tokens, List.map_reverse, List.sum_reverse]

theorem size_eq_zero_iff : c.size = 0 ↔ c.entered = [] ∧ c.buffer = [] := by
  rw [size_eq, Nat.add_eq_zero_iff, List.length_eq_zero_iff, and_comm]
  refine and_congr_left fun _ => ⟨fun h => ?_, fun h => by rw [h]; rfl⟩
  cases hentered : c.entered with
  | nil => rfl
  | cons t rest =>
      have hpos := t.size_pos
      rw [hentered, List.map_cons, List.sum_cons] at h
      omega

/-! ## One press -/

theorem length_cutToLimit_le (limit : Nat) (text : List Char) :
    (cutToLimit limit text).length ≤ text.length := by
  fun_induction cutToLimit limit text with
  | case1 text _ ih => exact ih.trans (erase_isPrefix text).length_le
  | case2 text _ => exact le_rfl

/-- **A press of backspace** is ignored where nothing has been entered. Anywhere else it
changes the entry alone, which has fewer parts then. -/
theorem backspace_cases (hfresh : c.isResult = false) :
    (c.entered = [] ∧ c.buffer = [] ∧ c.backspace = (.ignored, c)) ∨
      ∃ entered buffer, c.backspace = (.updated, { c with entered, buffer }) ∧
        { c with entered, buffer }.size < c.size := by
  unfold backspace
  rw [if_neg (by simp [hfresh])]
  by_cases hbuffer : c.buffer = []
  · rw [if_neg (by simp [hbuffer])]
    simp only [size_eq]
    split
    · next hentered => exact .inl ⟨hentered, hbuffer, rfl⟩
    · next f rest hentered =>
      refine .inr ⟨rest, c.buffer, rfl, ?_⟩
      simp [hentered, Token.size]
      omega
    · next literal rest hentered =>
      -- the characters that are left come back, and the token does not
      refine .inr ⟨rest, _, rfl, ?_⟩
      have hcut := length_cutToLimit_le c.settings.digitLimit (erase literal)
      have herase := (erase_isPrefix literal).length_le
      simp [hentered, Token.size]
      omega
    · next t rest _ _ hentered =>
      refine .inr ⟨rest, c.buffer, rfl, ?_⟩
      have hpos := t.size_pos
      simp [hentered]
      omega
  · rw [if_pos (by simp [hbuffer])]
    refine .inr ⟨c.entered, erase c.buffer, rfl, ?_⟩
    have herase := length_erase_lt hbuffer
    simp only [size_eq]
    omega

/-! ## Many presses -/

/-- **Each press takes one part off at least**, as long as there are any, and changes nothing
besides. -/
theorem size_run_backspace (hfresh : c.isResult = false) (n : Nat) :
    ∃ entered buffer, c.run (List.replicate n .backspace) = { c with entered, buffer } ∧
      { c with entered, buffer }.size ≤ c.size - n := by
  induction n generalizing c with
  | zero => exact ⟨c.entered, c.buffer, rfl, by simp⟩
  | succ n ih =>
      have hrun : c.run (List.replicate (n + 1) .backspace) =
          c.backspace.2.run (List.replicate n .backspace) := rfl
      rw [hrun]
      rcases backspace_cases hfresh with ⟨hentered, hbuffer, hpress⟩ | ⟨ts, text, hpress, hless⟩
      · have hnone : c.size = 0 := size_eq_zero_iff.mpr ⟨hentered, hbuffer⟩
        rw [hpress]
        obtain ⟨ts, text, hsame, hsize⟩ := ih hfresh
        exact ⟨ts, text, hsame, by omega⟩
      · rw [hpress]
        obtain ⟨ts', text', hsame, hsize⟩ := @ih { c with entered := ts, buffer := text } hfresh
        refine ⟨ts', text', hsame, hsize.trans ?_⟩
        omega

/-- **Backspace empties the entry.** Where no result is shown it is ignored exactly if nothing
has been entered, and anywhere else the entry has fewer parts behind it. So as many presses
as the entry has parts leave neither tokens nor buffer, and everything else as it was. -/
theorem backspace_empties (c : Calculator) (hfresh : c.isResult = false) :
    ((c.apply .backspace).1 = .ignored ↔ c.tokens = [] ∧ c.buffer = []) ∧
      (¬ (c.tokens = [] ∧ c.buffer = []) →
        (c.apply .backspace).1 = .updated ∧ (c.apply .backspace).2.size < c.size) ∧
      ∀ n, c.size ≤ n →
        c.run (List.replicate n .backspace) = { c with entered := [], buffer := [] } := by
  have htokens : c.tokens = [] ↔ c.entered = [] := List.reverse_eq_nil_iff
  have happly : c.apply .backspace = c.backspace := rfl
  rw [htokens, happly]
  refine ⟨?_, ?_, ?_⟩
  · rcases backspace_cases hfresh with ⟨hentered, hbuffer, hpress⟩ | ⟨ts, text, hpress, hless⟩
    · simp [hpress, hentered, hbuffer]
    · rw [hpress, ← size_eq_zero_iff]
      have hsome : c.size ≠ 0 := by omega
      simp [hsome]
  · intro hsome
    rcases backspace_cases hfresh with ⟨hentered, hbuffer, -⟩ | ⟨ts, text, hpress, hless⟩
    · exact absurd ⟨hentered, hbuffer⟩ hsome
    · rw [hpress]
      exact ⟨rfl, hless⟩
  · intro n hn
    obtain ⟨ts, text, hrun, hsize⟩ := size_run_backspace hfresh n
    have hnone : { c with entered := ts, buffer := text }.size = 0 := by omega
    obtain ⟨rfl, rfl⟩ := size_eq_zero_iff.mp hnone
    exact hrun

/-- It applies to a result that has been built on: `-2.5e-7 ^` has nine parts. -/
theorem backspace_empties_power_of_result :
    let c : Calculator := { new { maxDigits := some 0 } with
      entered := [.operator .power, .number "-2.5e-7".toList] }
    c.isResult = false ∧ c.size = 9 ∧
      c.run (List.replicate 9 .backspace) = { c with entered := [], buffer := [] } := by
  intro c
  have hfresh : c.isResult = false := rfl
  have hsize : c.size = 9 := by decide
  exact ⟨hfresh, hsize, (backspace_empties c hfresh).2.2 9 hsize.le⟩

end Calculator

end PocketCalc
