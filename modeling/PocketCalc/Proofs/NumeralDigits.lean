import Mathlib.Data.List.DropRight
import Mathlib.Tactic.Linarith
import Mathlib.Tactic.Positivity
import Mathlib.Tactic.Ring
import PocketCalc.Decimal.Scientific
import PocketCalc.Proofs.Numerals

/-!
# Numerals without superfluous zeros

A number has one numeral without zeros in front. Zeros at the end of the digits of a
scientific form are dropped, and then the form depends on the number only.

* `numeral_numeralValue` — **the numeral of what digits stand for are these digits.**
* `Scientific.exists_zeros`, `Scientific.trim_eq_rdropWhile` — which digits are dropped.
* `Scientific.ofDec_numeralValue` — the form of a decimal by its digits.
-/

namespace PocketCalc.Decimal

/-! ## Size -/

theorem numeralValue_lt (ds : List Digit) : numeralValue ds < 10 ^ ds.length := by
  induction ds with
  | nil => simp
  | cons d ds ih =>
    rw [numeralValue_cons, List.length_cons, pow_succ]
    have := Nat.mul_le_mul_right (10 ^ ds.length) (Nat.le_of_lt_succ d.isLt)
    omega

theorem numeralValue_replicate_zero (k : ℕ) : numeralValue (List.replicate k 0) = 0 := by
  induction k with
  | zero => rfl
  | succ k ih => rw [List.replicate_succ, numeralValue_cons, ih]; simp

theorem numeralValue_append_zeros (ds : List Digit) (k : ℕ) :
    numeralValue (ds ++ List.replicate k 0) = numeralValue ds * 10 ^ k := by
  rw [numeralValue_append, numeralValue_replicate_zero, List.length_replicate, add_zero]

/-- Digits that begin with a digit other than zero. -/
def Leads (ds : List Digit) : Prop :=
  ∃ d rest, ds = d :: rest ∧ d ≠ 0

theorem Leads.ne_nil {ds : List Digit} (h : Leads ds) : ds ≠ [] := by
  obtain ⟨d, rest, rfl, -⟩ := h
  simp

theorem Leads.length_pos {ds : List Digit} (h : Leads ds) : 0 < ds.length :=
  List.length_pos_of_ne_nil h.ne_nil

theorem Leads.append {ds : List Digit} (h : Leads ds) (es : List Digit) : Leads (ds ++ es) := by
  obtain ⟨d, rest, rfl, hd⟩ := h
  exact ⟨d, rest ++ es, rfl, hd⟩

theorem Leads.take {ds : List Digit} (h : Leads ds) {k : ℕ} (hk : 0 < k) : Leads (ds.take k) := by
  obtain ⟨d, rest, rfl, hd⟩ := h
  obtain ⟨j, rfl⟩ := Nat.exists_eq_succ_of_ne_zero hk.ne'
  exact ⟨d, rest.take j, List.take_succ_cons, hd⟩

theorem Leads.pow_le {ds : List Digit} (h : Leads ds) : 10 ^ (ds.length - 1) ≤ numeralValue ds := by
  obtain ⟨d, rest, rfl, hd⟩ := h
  have hd' : 1 ≤ d.val := Nat.one_le_iff_ne_zero.mpr fun h => hd (Fin.ext h)
  have := Nat.mul_le_mul_right (10 ^ rest.length) hd'
  rw [numeralValue_cons, List.length_cons, Nat.add_sub_cancel]
  omega

theorem Leads.numeralValue_pos {ds : List Digit} (h : Leads ds) : 0 < numeralValue ds :=
  lt_of_lt_of_le (by positivity) h.pow_le

/-! ## Numerals -/

theorem leads_numeralOnto (fuel : ℕ) {n : ℕ} (h0 : n ≠ 0) (hn : n < 10 ^ (fuel + 1))
    (tail : List Digit) : Leads (numeralOnto fuel n tail) := by
  have hdigit : ∀ n : ℕ, n ≠ 0 → n < 10 → (Fin.ofNat 10 n : Digit) ≠ 0 := by
    intro n h0 hn h
    have := congrArg Fin.val h
    simp [Fin.ofNat] at this
    omega
  induction fuel generalizing n tail with
  | zero => exact ⟨_, tail, rfl, hdigit n h0 (by simpa using hn)⟩
  | succ fuel ih =>
    unfold numeralOnto
    split
    · next hlt => exact ⟨_, tail, rfl, hdigit n h0 hlt⟩
    · refine ih (by omega) ?_ _
      rw [Nat.div_lt_iff_lt_mul (by decide), ← pow_succ]
      exact hn

theorem leads_numeral {n : ℕ} (h0 : n ≠ 0) : Leads (numeral n) := by
  refine leads_numeralOnto _ h0 ?_ _
  exact lt_of_lt_of_le Nat.lt_log2_self (Nat.pow_le_pow_left (by decide) _)

/-- Digits of the same number and the same length are the same. -/
theorem eq_of_numeralValue_eq {as bs : List Digit} (hlength : as.length = bs.length)
    (h : numeralValue as = numeralValue bs) : as = bs := by
  induction as generalizing bs with
  | nil => exact (List.length_eq_zero_iff.mp hlength.symm).symm
  | cons a as ih =>
    cases bs with
    | nil => cases hlength
    | cons b bs =>
      have hlength' : as.length = bs.length := by simpa using hlength
      have ha := numeralValue_lt as
      have hb := numeralValue_lt bs
      have hpos : 0 < 10 ^ bs.length := by positivity
      rw [numeralValue_cons, numeralValue_cons, hlength', mul_comm a.val, mul_comm b.val] at h
      rw [hlength'] at ha
      have hhead : a.val = b.val := by
        have hq := congrArg (· / 10 ^ bs.length) h
        simpa [Nat.mul_add_div hpos, Nat.div_eq_of_lt ha, Nat.div_eq_of_lt hb] using hq
      rw [Fin.ext hhead, ih hlength' (by rw [hhead] at h; omega)]

theorem Leads.length_le {as bs : List Digit} (ha : Leads as)
    (h : numeralValue as ≤ numeralValue bs) : as.length ≤ bs.length := by
  have hlow := ha.pow_le
  have hup := numeralValue_lt bs
  have hpow := (Nat.pow_lt_pow_iff_right (by decide : 1 < 10)).mp
    (lt_of_le_of_lt (hlow.trans h) hup)
  omega

/-- **The numeral of what digits stand for are these digits.** -/
theorem numeral_numeralValue {ds : List Digit} (h : Leads ds) : numeral (numeralValue ds) = ds := by
  have hnumeral := leads_numeral h.numeralValue_pos.ne'
  have hvalue := numeralValue_numeral (numeralValue ds)
  exact eq_of_numeralValue_eq
    (le_antisymm (hnumeral.length_le hvalue.le) (h.length_le hvalue.ge)) hvalue

/-- A number lies between the powers of ten that its length gives. -/
theorem numeral_bounds {n : ℕ} (h0 : n ≠ 0) :
    10 ^ ((numeral n).length - 1) ≤ n ∧ n < 10 ^ (numeral n).length := by
  have hlow := (leads_numeral h0).pow_le
  have hup := numeralValue_lt (numeral n)
  rw [numeralValue_numeral] at hlow hup
  exact ⟨hlow, hup⟩

theorem length_numeral_le_iff {n k : ℕ} (h0 : n ≠ 0) : (numeral n).length ≤ k ↔ n < 10 ^ k := by
  obtain ⟨hlow, hup⟩ := numeral_bounds h0
  constructor
  · intro h
    exact hup.trans_le (Nat.pow_le_pow_right (by norm_num) h)
  · intro h
    have := (Nat.pow_lt_pow_iff_right (by norm_num)).mp (hlow.trans_lt h)
    omega

/-- Without its last digit a number is a tenth, rounded down. -/
theorem numeralValue_dropLast (ds : List Digit) :
    numeralValue ds.dropLast = numeralValue ds / 10 := by
  induction ds using List.reverseRecOn with
  | nil => rfl
  | append_singleton ds d _ =>
    have hvalue : numeralValue (ds ++ [d]) = numeralValue ds * 10 + d.val := by
      rw [numeralValue_append, numeralValue_cons]
      simp
    have hd := d.isLt
    rw [List.dropLast_concat, hvalue]
    omega

/-! ## Zeros at the end -/

namespace Scientific

theorem trim_concat_of_ne {a : Digit} (ha : a ≠ 0) (ds : List Digit) :
    trim (ds ++ [a]) = ds ++ [a] := by
  induction ds with
  | nil => rfl
  | cons d ds ih =>
    rw [List.cons_append, trim, ih]
    split
    · next h => simp at h
    · next h =>
      -- what ends on another digit is not a single zero
      cases ds with
      | nil => simp [ha] at h
      | cons d' ds => simp at h
    · rfl

theorem trim_concat_zero {ds : List Digit} (h : ds ≠ []) : trim (ds ++ [0]) = trim ds := by
  induction ds with
  | nil => exact absurd rfl h
  | cons d ds ih =>
    rw [List.cons_append, trim, trim]
    cases ds with
    | nil => rfl
    | cons d' ds => rw [ih (by simp)]

theorem trim_append_zeros {ds : List Digit} (h : ds ≠ []) (k : ℕ) :
    trim (ds ++ List.replicate k 0) = trim ds := by
  induction k with
  | zero => simp
  | succ k ih =>
    rw [List.replicate_succ', ← List.append_assoc, trim_concat_zero (by simp [h]), ih]

/-- Only zeros are dropped, -/
theorem exists_zeros (ds : List Digit) : ∃ k, ds = trim ds ++ List.replicate k 0 := by
  induction ds using List.reverseRecOn with
  | nil => exact ⟨0, rfl⟩
  | append_singleton ds a ih =>
    by_cases ha : a = 0
    · subst ha
      cases ds with
      | nil => exact ⟨0, rfl⟩
      | cons d ds =>
        obtain ⟨k, hk⟩ := ih
        refine ⟨k + 1, ?_⟩
        rw [trim_concat_zero (by simp), List.replicate_succ', ← List.append_assoc, ← hk]
    · exact ⟨0, by simp [trim_concat_of_ne ha]⟩

/-- and of digits that do not begin with a zero all of them. -/
theorem trim_eq_rdropWhile {ds : List Digit} (h : Leads ds) :
    trim ds = ds.rdropWhile (· == 0) := by
  induction ds using List.reverseRecOn with
  | nil => exact absurd rfl h.ne_nil
  | append_singleton ds a ih =>
    rw [List.rdropWhile_concat]
    by_cases ha : a = 0
    · subst ha
      cases ds with
      | nil =>
        obtain ⟨d, rest, heq, hd⟩ := h
        simp at heq
        exact absurd heq.1.symm hd
      | cons d ds =>
        have hleads : Leads (d :: ds) := by
          obtain ⟨d', rest, heq, hd⟩ := h
          have hhead : d = d' := by simpa using congrArg List.head? heq
          exact ⟨d, ds, rfl, hhead ▸ hd⟩
        rw [trim_concat_zero (by simp), ih hleads, if_pos (by simp)]
    · rw [trim_concat_of_ne ha, if_neg (by simpa using ha)]

theorem leads_trim {ds : List Digit} (h : Leads ds) : Leads (trim ds) := by
  obtain ⟨k, hk⟩ := exists_zeros ds
  obtain ⟨d, rest, heq, hd⟩ := h
  have hne : trim ds ≠ [] := by
    intro hnil
    rw [hnil, List.nil_append, heq] at hk
    cases k with
    | zero => simp at hk
    | succ k =>
      rw [List.replicate_succ] at hk
      exact hd (List.cons.inj hk).1
  obtain ⟨d', rest', heq'⟩ := List.exists_cons_of_ne_nil hne
  have hhead : d' = d := by
    rw [heq', heq] at hk
    simpa using (congrArg List.head? hk).symm
  exact ⟨d', rest', heq', hhead ▸ hd⟩

theorem trim_trim (ds : List Digit) : trim (trim ds) = trim ds := by
  obtain ⟨k, hk⟩ := exists_zeros ds
  by_cases hnil : trim ds = []
  · rw [hnil]
    rfl
  · conv_rhs => rw [hk, trim_append_zeros hnil]

theorem length_trim_le (ds : List Digit) : (trim ds).length ≤ ds.length := by
  obtain ⟨k, hk⟩ := exists_zeros ds
  have := congrArg List.length hk
  simp at this
  omega

/-- Digits that change get fewer. -/
theorem length_trim_lt {ds : List Digit} (h : trim ds ≠ ds) : (trim ds).length < ds.length := by
  obtain ⟨k, hk⟩ := exists_zeros ds
  have hlength := congrArg List.length hk
  rw [List.length_append, List.length_replicate] at hlength
  have hk0 : k ≠ 0 := by
    rintro rfl
    rw [List.replicate_zero, List.append_nil] at hk
    exact h hk.symm
  omega

/-! ## The scientific form of a decimal -/

/-- Digits in front of an exponent. -/
theorem ofDec_numeralValue (negative : Bool) {ds : List Digit} (h : Leads ds) (e : ℤ) :
    ofDec negative ⟨numeralValue ds, e⟩ = ⟨negative, trim ds, e + (ds.length : ℤ) - 1⟩ := by
  simp only [ofDec, numeral_numeralValue h]

/-- Zeros behind the digits count for the exponent. -/
theorem ofDec_mul_pow (negative : Bool) {c : ℕ} (h0 : c ≠ 0) (k : ℕ) (e : ℤ) :
    ofDec negative ⟨c * 10 ^ k, e⟩ = ofDec negative ⟨c, e + k⟩ := by
  have hleads := leads_numeral h0
  have hvalue : c * 10 ^ k = numeralValue (numeral c ++ List.replicate k 0) := by
    rw [numeralValue_append_zeros, numeralValue_numeral]
  rw [hvalue, ofDec_numeralValue negative (hleads.append _)]
  simp only [ofDec, trim_append_zeros hleads.ne_nil, List.length_append, List.length_replicate,
    Nat.cast_add]
  congr 1
  ring

end Scientific

end PocketCalc.Decimal
