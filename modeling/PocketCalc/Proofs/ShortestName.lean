import PocketCalc.Proofs.NumeralDigits
import PocketCalc.Proofs.RoundingInterval

/-!
# The shortest name of a value

The name of a value is looked for on coarser grids first, so that a value that can be
named on some grid has its name there or on a coarser one; and short names are unique.

* `Binary.leadingPlace_bounds` — the magnitude by the number of places in front of the point.
* `Binary.roundsFrom_shortest` — **the shortest name reads back.**
* `Binary.exists_shortest_on_grid` — it stands on every grid that names the value.
* `Binary.shortest_value` — **a name of up to fifteen digits is the shortest name**, up to
  zeros at its end.
-/

namespace PocketCalc.Decimal

/-! ## Places in front of the point -/

namespace Binary

variable {x : Binary}

/-- A value as a fraction of natural numbers. -/
theorem magnitude_eq_div (x : Binary) :
    x.magnitude = ((x.m * 2 ^ x.q.toNat : ℕ) : ℚ) / (2 ^ (-x.q).toNat : ℕ) := by
  rw [magnitude, eq_div_iff (by positivity)]
  push_cast
  rw [mul_assoc, zpow_mul_pow_toNat (by norm_num)]

/-- **The number of places in front of the point** gives the powers of ten that the
magnitude lies between. -/
theorem leadingPlace_bounds (h0 : x.m ≠ 0) :
    (10 : ℚ) ^ (x.leadingPlace - 1) ≤ x.magnitude ∧ x.magnitude < 10 ^ x.leadingPlace := by
  have hfraction := x.magnitude_eq_div
  have hnum0 : x.m * 2 ^ x.q.toNat ≠ 0 := Nat.mul_ne_zero h0 (by positivity)
  have hden0 : 0 < 2 ^ (-x.q).toNat := by positivity
  unfold leadingPlace
  simp only [Nat.pow_eq]
  generalize x.m * 2 ^ x.q.toNat = num at hfraction hnum0 ⊢
  generalize 2 ^ (-x.q).toNat = den at hfraction hden0 ⊢
  have hnumpos : (0 : ℚ) < num := by exact_mod_cast Nat.pos_of_ne_zero hnum0
  have hdenpos : (0 : ℚ) < den := by exact_mod_cast hden0
  rw [hfraction]
  split
  · next hle =>
    have hwhole0 : num / den ≠ 0 := (Nat.div_pos hle hden0).ne'
    obtain ⟨hlow, hup⟩ := numeral_bounds hwhole0
    have hlength := (leads_numeral hwhole0).length_pos
    generalize (numeral (num / den)).length = length at hlow hup hlength
    have hprev : ((length : ℤ) - 1) = ((length - 1 : ℕ) : ℤ) := by omega
    rw [hprev, zpow_natCast, zpow_natCast, le_div_iff₀ hdenpos, div_lt_iff₀ hdenpos]
    constructor
    · exact_mod_cast (Nat.le_div_iff_mul_le hden0).mp hlow
    · exact_mod_cast (Nat.div_lt_iff_lt_mul hden0).mp hup
  · next hlt =>
    -- one less than the rounded up inverse, which is two at least
    obtain ⟨above, habove⟩ : ∃ above, above = (den + num - 1) / num - 1 := ⟨_, rfl⟩
    have hnum : 0 < num := Nat.pos_of_ne_zero hnum0
    have hmod := Nat.div_add_mod (den + num - 1) num
    have hmodlt := Nat.mod_lt (den + num - 1) hnum
    have hceil : (den + num - 1) / num = above + 1 := by
      have : 1 ≤ (den + num - 1) / num := (Nat.le_div_iff_mul_le hnum).mpr (by omega)
      omega
    rw [hceil, mul_add, mul_one] at hmod
    have habove0 : above ≠ 0 := by
      rintro rfl
      omega
    rw [← habove]
    obtain ⟨hlow, hup⟩ := numeral_bounds habove0
    have hlength := (leads_numeral habove0).length_pos
    generalize (numeral above).length = length at hlow hup hlength
    have hplace : (1 : ℤ) - length - 1 = -(length : ℤ) := by ring
    have hnext : (1 : ℤ) - length = -((length - 1 : ℕ) : ℤ) := by omega
    rw [hplace, hnext, zpow_neg, zpow_neg, zpow_natCast, zpow_natCast,
      inv_le_iff_one_le_mul₀ (by positivity), lt_inv_comm₀ (by positivity) (by positivity),
      div_mul_eq_mul_div, one_le_div hdenpos, inv_div, lt_div_iff₀ hnumpos]
    constructor
    · have : den ≤ num * 10 ^ length := by
        have := Nat.mul_le_mul_left num (Nat.succ_le_of_lt hup)
        rw [Nat.mul_succ] at this
        omega
      exact_mod_cast this
    · have : 10 ^ (length - 1) * num < den := by
        have := Nat.mul_le_mul_right num hlow
        rw [mul_comm above] at this
        omega
      exact_mod_cast this

/-! ## Names on a grid -/

theorem floorAt_bounds (x : Binary) (e : ℤ) :
    x.floorAt e * (10 : ℚ) ^ e ≤ x.magnitude ∧ x.magnitude < (x.floorAt e + 1 : ℕ) * 10 ^ e := by
  have hden : 0 < Nat.pow 10 e.toNat * Nat.pow 2 (-x.q).toNat := by
    simp only [Nat.pow_eq]
    positivity
  unfold magnitude
  rw [← decimalLe_iff, ← not_le, ← decimalLe_iff]
  simp only [decimalLe, decide_eq_true_eq, not_le, mul_assoc (floorAt x e),
    mul_assoc (floorAt x e + 1)]
  exact ⟨Nat.div_mul_le_self _ _, (Nat.div_lt_iff_lt_mul hden).mp (Nat.lt_succ_self _)⟩

/-- Whatever lies between two numbers of the interval belongs to it. -/
theorem RoundsFrom.between {u v w : ℚ} (hu : x.RoundsFrom u) (hw : x.RoundsFrom w) (huv : u ≤ v)
    (hvw : v ≤ w) : x.RoundsFrom v := by
  unfold RoundsFrom at *
  split at hu
  · next heven =>
    rw [if_pos heven] at hw ⊢
    exact ⟨hu.1.trans huv, hvw.trans hw.2⟩
  · next hodd =>
    rw [if_neg hodd] at hw ⊢
    exact ⟨lt_of_lt_of_le hu.1 huv, lt_of_le_of_lt hvw hw.2⟩

/-- A name on the grid is a multiple of the power of ten and reads back. -/
theorem of_onGrid {e : ℤ} {d : Dec} (h : x.onGrid e = some d) :
    d.exponent = e ∧ x.RoundsFrom d.value := by
  unfold onGrid at h
  simp only at h
  split at h
  · next hbelow =>
    split at h
    · next habove =>
      obtain rfl := Option.some.inj h
      rw [Bool.and_eq_true] at habove
      exact ⟨rfl, readsBack_iff.mp habove.1⟩
    · obtain rfl := Option.some.inj h
      exact ⟨rfl, readsBack_iff.mp hbelow⟩
  · split at h
    · next habove =>
      obtain rfl := Option.some.inj h
      exact ⟨rfl, readsBack_iff.mp habove⟩
    · cases h

/-- If any multiple of the power of ten reads back, one of the two neighbours does. -/
theorem onGrid_ne_none {e : ℤ} {k : ℕ} (h : x.RoundsFrom (k * 10 ^ e)) : x.onGrid e ≠ none := by
  obtain ⟨hle, hlt⟩ := x.floorAt_bounds e
  have hself := x.roundsFrom_magnitude
  have hneighbour :
      x.readsBack ⟨x.floorAt e, e⟩ = true ∨ x.readsBack ⟨x.floorAt e + 1, e⟩ = true := by
    rw [readsBack_iff, readsBack_iff]
    rcases Nat.lt_or_ge (x.floorAt e) k with hk | hk
    · right
      refine hself.between h hlt.le ?_
      simp only [Dec.value]
      gcongr
      exact hk
    · left
      refine h.between hself ?_ hle
      simp only [Dec.value]
      gcongr
  unfold onGrid
  simp only
  rcases hneighbour with hbelow | habove
  · rw [if_pos hbelow]
    split <;> simp
  · rw [if_pos habove]
    split
    · split <;> simp
    · simp

theorem exact_value (x : Binary) : x.exact.value = x.magnitude := by
  unfold exact Dec.value
  split
  · next hq =>
    have hpow : (2 : ℚ) ^ x.q = 2 ^ x.q.toNat := by
      rw [← zpow_natCast, Int.toNat_of_nonneg hq]
    rw [magnitude, hpow]
    simp
  · next hq =>
    have hhalf : (10 : ℚ) ^ x.q = 2 ^ x.q * 5 ^ x.q := by
      rw [← mul_zpow]
      norm_num
    have hfive : (5 : ℚ) ^ (-x.q).toNat * 5 ^ x.q = 1 := by
      rw [← zpow_natCast, ← zpow_add₀ (by norm_num : (5 : ℚ) ≠ 0)]
      rw [show ((-x.q).toNat : ℤ) + x.q = 0 by omega, zpow_zero]
    rw [magnitude, hhalf]
    simp only [Nat.pow_eq]
    push_cast
    calc (x.m : ℚ) * 5 ^ (-x.q).toNat * (2 ^ x.q * 5 ^ x.q)
        = x.m * 2 ^ x.q * (5 ^ (-x.q).toNat * 5 ^ x.q) := by ring
      _ = x.m * 2 ^ x.q := by rw [hfive, mul_one]

/-- The shortest name is a name. -/
theorem roundsFrom_shortest (x : Binary) : x.RoundsFrom x.shortest.value := by
  unfold shortest
  cases hfind :
      (List.range 17).findSome? fun (n : ℕ) => x.onGrid (x.leadingPlace - 1 - (n : ℤ)) with
  | none =>
    rw [Option.getD_none, exact_value]
    exact x.roundsFrom_magnitude
  | some d =>
    obtain ⟨n, -, hn⟩ := List.exists_of_findSome?_eq_some hfind
    exact (of_onGrid hn).2

/-! ## The coarsest grid wins -/

/-- The first index with a result is no later than any index with one. -/
theorem findSome?_range {α : Type} {f : ℕ → Option α} {N n : ℕ} (hn : n < N) (h : f n ≠ none) :
    ∃ n' ≤ n, ∃ a, f n' = some a ∧ (List.range N).findSome? f = some a := by
  obtain ⟨b, hb⟩ := Option.ne_none_iff_exists'.mp h
  cases hfind : (List.range N).findSome? f with
  | none =>
    have := List.findSome?_eq_none_iff.mp hfind n (List.mem_range.mpr hn)
    exact absurd this h
  | some a =>
    obtain ⟨front, n', rest, hsplit, ha, hfront⟩ := List.findSome?_eq_some_iff.mp hfind
    refine ⟨n', ?_, a, ha, rfl⟩
    have hsorted : (front ++ n' :: rest).Pairwise (· < ·) := hsplit ▸ List.pairwise_lt_range
    have hmem : n ∈ front ++ n' :: rest := hsplit ▸ List.mem_range.mpr hn
    rcases List.mem_append.mp hmem with hmem | hmem
    · exact absurd (hfront n hmem) h
    · rcases List.mem_cons.mp hmem with rfl | hmem
      · exact le_rfl
      · have htail := (List.pairwise_append.mp hsorted).2.1
        exact ((List.pairwise_cons.mp htail).1 n hmem).le

/-- Two numbers of an interval are closer than one unit in the last place. -/
theorem RoundsFrom.abs_sub_le_unit {v w : ℚ} (hv : x.RoundsFrom v) (hw : x.RoundsFrom w) :
    |v - w| ≤ 2 ^ x.q := by
  have hvm := hv.abs_sub_le
  have hwm := hw.abs_sub_le
  rw [abs_sub_comm] at hwm
  calc |v - w| = |(v - x.magnitude) + (x.magnitude - w)| := by ring_nf
    _ ≤ |v - x.magnitude| + |x.magnitude - w| := abs_add_le _ _
    _ ≤ 2 ^ x.q / 2 + 2 ^ x.q / 2 := add_le_add hvm hwm
    _ = 2 ^ x.q := by ring

/-- On a grid wider than the interval there is one name only. -/
theorem RoundsFrom.unique_on_grid {j k : ℕ} {e : ℤ} (hj : x.RoundsFrom (j * 10 ^ e))
    (hk : x.RoundsFrom (k * 10 ^ e)) (hunit : (2 : ℚ) ^ x.q < 10 ^ e) : j = k := by
  by_contra hne
  have hclose := hj.abs_sub_le_unit hk
  rw [← sub_mul, abs_mul, abs_of_pos (by positivity : (0 : ℚ) < 10 ^ e)] at hclose
  have hone : (1 : ℚ) ≤ |(j : ℚ) - k| := by
    have : 1 ≤ |(j : ℤ) - k| := Int.one_le_abs (by omega)
    exact_mod_cast this
  have hten : (0 : ℚ) < 10 ^ e := by positivity
  nlinarith

/-- The numbers of a coarser grid are on the finer grids as well. -/
theorem exists_mul_pow (c : ℕ) {e f : ℤ} (h : e ≤ f) :
    (c : ℚ) * 10 ^ f = (c * 10 ^ (f - e).toNat : ℕ) * 10 ^ e := by
  push_cast
  rw [← zpow_natCast, mul_assoc, ← zpow_add₀ (by norm_num : (10 : ℚ) ≠ 0)]
  congr 2
  omega

/-- **A name on a grid puts the shortest name on that grid**, if it is not finer than
seventeen digits. -/
theorem exists_shortest_on_grid (hm : 2 ^ 52 ≤ x.m) {k : ℕ} {e : ℤ}
    (h : x.RoundsFrom (k * 10 ^ e)) (he : x.leadingPlace - 17 ≤ e) :
    ∃ j : ℕ, x.shortest.value = j * 10 ^ e := by
  have h0 : x.m ≠ 0 := by omega
  rcases le_or_gt e (x.leadingPlace - 1) with hle | hgt
  · -- one of the grids that are tried, and the first with a name is no finer
    have hgrid : x.leadingPlace - 1 - ((x.leadingPlace - 1 - e).toNat : ℤ) = e := by omega
    obtain ⟨n, hn, d, hd, hfind⟩ := findSome?_range
      (f := fun (n : ℕ) => x.onGrid (x.leadingPlace - 1 - (n : ℤ)))
      (by omega : (x.leadingPlace - 1 - e).toNat < 17) (by rw [hgrid]; exact onGrid_ne_none h)
    have hshortest : x.shortest = d := by unfold shortest; rw [hfind]; rfl
    obtain ⟨hexponent, -⟩ := of_onGrid hd
    rw [hshortest, Dec.value, hexponent, exists_mul_pow _ (by omega : e ≤ _)]
    exact ⟨_, rfl⟩
  · -- a grid coarser than all that are tried: the first of them has the same name
    rw [exists_mul_pow k hgt.le] at h
    obtain ⟨n, hn, d, hd, hfind⟩ := findSome?_range
      (f := fun (n : ℕ) => x.onGrid (x.leadingPlace - 1 - (n : ℤ)))
      (by norm_num : 0 < 17) (by simpa using onGrid_ne_none h)
    obtain rfl : n = 0 := by omega
    have hshortest : x.shortest = d := by unfold shortest; rw [hfind]; rfl
    obtain ⟨hexponent, hrounds⟩ := of_onGrid hd
    simp only [Nat.cast_zero, sub_zero] at hexponent
    have hunit : (2 : ℚ) ^ x.q < 10 ^ (x.leadingPlace - 1) := by
      have hup := (leadingPlace_bounds h0).2
      have hlow := unit_le_magnitude hm
      have hten : (10 : ℚ) ^ x.leadingPlace = 10 ^ (x.leadingPlace - 1) * 10 := by
        rw [← zpow_add_one₀ (by norm_num : (10 : ℚ) ≠ 0), sub_add_cancel]
      have hpos : (0 : ℚ) < 2 ^ x.q := by positivity
      linarith
    rw [Dec.value, hexponent] at hrounds
    have heq := hrounds.unique_on_grid h hunit
    rw [hshortest, Dec.value, hexponent, heq, ← exists_mul_pow k hgt.le]
    exact ⟨k, rfl⟩

/-- **A name of up to fifteen digits is the shortest name.** -/
theorem shortest_value (hm : 2 ^ 52 ≤ x.m) {c : ℕ} (hc : c < 10 ^ 15) {e : ℤ}
    (h : x.RoundsFrom (c * 10 ^ e)) : x.shortest.value = c * 10 ^ e := by
  have h0 : x.m ≠ 0 := by omega
  have hcq : (c : ℚ) < 10 ^ 15 := by exact_mod_cast hc
  have hten : (0 : ℚ) < 10 ^ e := by positivity
  have herror := abs_le.mp h.abs_sub_le
  have hlow := unit_le_magnitude hm
  have hpos : (0 : ℚ) < 2 ^ x.q := by positivity
  have hlt : (c : ℚ) * 10 ^ e < 10 ^ 15 * 10 ^ e := by gcongr
  have hunit : (2 : ℚ) ^ x.q < 10 ^ e := by linarith
  have hplace : x.leadingPlace - 17 ≤ e := by
    have hle := (leadingPlace_bounds h0).1
    have hlarge : (10 : ℚ) ^ (x.leadingPlace - 1) < 10 ^ (e + 16) := by
      have hsplit : (10 : ℚ) ^ (e + 16) = 10 ^ e * 10 ^ 16 := by
        rw [zpow_add₀ (by norm_num : (10 : ℚ) ≠ 0)]
        norm_num
      rw [hsplit]
      linarith
    have := (zpow_lt_zpow_iff_right₀ (by norm_num : (1 : ℚ) < 10)).mp hlarge
    omega
  obtain ⟨j, hj⟩ := exists_shortest_on_grid hm h hplace
  have hshortest := x.roundsFrom_shortest
  rw [hj] at hshortest
  rw [hj, hshortest.unique_on_grid h hunit]

end Binary

end PocketCalc.Decimal
