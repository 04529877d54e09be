import Mathlib.Tactic.NormNum
import PocketCalc.Proofs.RoundingInterval

/-!
# Bits and parts of a floating-point number

Floating-point arithmetic works on an unpacked form of its numbers: no number, an
infinity, a zero, or digits with an exponent. `Parts` reads the same off the bits.

* `unpack_toModel` — **the unpacked form of a number is made of its parts.**
* `packed` — the number with a given unpacked form; `ofFloat_packed_zero`,
  `ofFloat_packed_infinity` and `ofFloat_packed_finite` give its parts.
* `canonical_of_ofFloat` — the finite values that occur are canonical.
* `eq_of_ofFloat_eq` — a number is determined by its parts.
-/

namespace PocketCalc.Decimal

open Float.Model (Format UnpackedFloat)
open Float.Model.UnpackedFloat

/-! ## Fields of the bits -/

/-- The sign of a number that is negative or not. -/
def signOf (negative : Bool) : Sign :=
  if negative then .negative else .positive

def signBit (negative : Bool) : ℕ :=
  if negative then 2 ^ 63 else 0

/-- The parts of bits with given fields. -/
theorem Parts.ofBits_fields (negative : Bool) {e f : ℕ} (he : e < 2 ^ 11) (hf : f < 2 ^ 52) :
    Parts.ofBits (signBit negative + e * 2 ^ 52 + f) =
      if e = 2047 then if f = 0 then .infinite negative else .notANumber
      else .finite (Binary.ofFields negative e f) := by
  have hexponent : (signBit negative + e * 2 ^ 52 + f) / Nat.pow 2 52 % Nat.pow 2 11 = e := by
    simp only [Nat.pow_eq]
    unfold signBit
    split <;> omega
  have hfraction : (signBit negative + e * 2 ^ 52 + f) % Nat.pow 2 52 = f := by
    simp only [Nat.pow_eq]
    unfold signBit
    split <;> omega
  have hnegative : decide (Nat.pow 2 63 ≤ signBit negative + e * 2 ^ 52 + f) = negative := by
    simp only [Nat.pow_eq]
    cases negative <;> simp [signBit] <;> omega
  unfold Parts.ofBits
  simp only [hexponent, hfraction, hnegative]

/-- All bits have fields. -/
theorem exists_fields {bits : ℕ} (h : bits < 2 ^ 64) :
    ∃ negative e f, e < 2 ^ 11 ∧ f < 2 ^ 52 ∧ bits = signBit negative + e * 2 ^ 52 + f := by
  refine ⟨decide (2 ^ 63 ≤ bits), bits / 2 ^ 52 % 2 ^ 11, bits % 2 ^ 52,
    Nat.mod_lt _ (by norm_num), Nat.mod_lt _ (by norm_num), ?_⟩
  unfold signBit
  split <;> simp at * <;> omega

theorem toNat_packComponents (s : Sign) (e : BitVec 11) (f : BitVec 52) :
    (packComponents Format.binary64 s e f).toNat =
      signBit (s == .negative) + e.toNat * 2 ^ 52 + f.toNat := by
  unfold packComponents
  rw [BitVec.toNat_append, BitVec.toNat_append, ← Nat.shiftLeft_add_eq_or_of_lt f.isLt,
    ← Nat.shiftLeft_add_eq_or_of_lt e.isLt]
  have hsign : s.toBitVec.toNat = if s == .negative then 1 else 0 := by cases s <;> rfl
  rw [hsign, Nat.shiftLeft_eq, Nat.shiftLeft_eq]
  unfold signBit
  split <;> omega

theorem toNat_unpackExponent (b : BitVec 64) :
    (@unpackExponent Format.binary64 b).toNat = b.toNat / 2 ^ 52 % 2 ^ 11 := by
  simp [unpackExponent, BitVec.extractLsb_toNat, Nat.shiftRight_eq_div_pow]

theorem toNat_unpackMantissa (b : BitVec 64) :
    (@unpackMantissa Format.binary64 b).toNat = b.toNat % 2 ^ 52 := by
  simp [unpackMantissa, BitVec.extractLsb_toNat]

theorem toNat_unpackSign (b : BitVec 64) :
    (@unpackSign Format.binary64 b).toNat = b.toNat / 2 ^ 63 := by
  have hlt := b.isLt
  have hextract : @unpackSign Format.binary64 b = b.extractLsb 63 63 := rfl
  rw [hextract]
  simp [BitVec.extractLsb_toNat, Nat.shiftRight_eq_div_pow]
  omega

/-- The implicit leading one is counted. -/
theorem mantissaBits_eq : Format.binary64.mantissaBits = 53 := rfl

/-! ## Unpacking -/

/-- A finite value without a width. -/
def Binary.unpacked (x : Binary) : UnpackedFloat :=
  if h : x.m = 0 then .zero (signOf x.negative)
  else .finite (signOf x.negative) x.m x.q (Nat.pos_of_ne_zero h)

def Parts.unpacked : Parts → UnpackedFloat
  | .notANumber => .notANumber
  | .infinite negative => .infinity (signOf negative)
  | .finite x => x.unpacked

/-- The implicit bit in front of the fraction. -/
theorem toNat_implicit_append (f : BitVec 52) : (1#1 ++ f).toNat = 2 ^ 52 + f.toNat := by
  rw [BitVec.toNat_append, ← Nat.shiftLeft_add_eq_or_of_lt f.isLt]
  rfl

theorem ofBitVec_eq_signOf (b : BitVec 1) : Sign.ofBitVec b = signOf (b.toNat = 1) := by
  rcases BitVec.eq_zero_or_eq_one b with rfl | rfl <;> rfl

/-- Unpacking finds the parts. -/
theorem unpack_eq (b : BitVec 64) :
    UnpackedFloat.unpack Format.binary64 b = (Parts.ofBits b.toNat).unpacked := by
  obtain ⟨negative, e, f, he, hf, hb⟩ := exists_fields b.isLt
  have hexponent : (@unpackExponent Format.binary64 b).toNat = e := by
    rw [toNat_unpackExponent, hb]
    unfold signBit
    split <;> omega
  have hmantissa : (@unpackMantissa Format.binary64 b).toNat = f := by
    rw [toNat_unpackMantissa, hb]
    unfold signBit
    split <;> omega
  have hsign : Sign.ofBitVec (@unpackSign Format.binary64 b) = signOf negative := by
    rw [ofBitVec_eq_signOf, toNat_unpackSign, hb]
    congr 1
    cases negative <;> simp [signBit] <;> omega
  have hall : @unpackExponent Format.binary64 b = -1#11 ↔ e = 2047 := by
    rw [← BitVec.toNat_inj, hexponent]
    rfl
  have hnone : @unpackExponent Format.binary64 b = 0#11 ↔ e = 0 := by
    rw [← BitVec.toNat_inj, hexponent]
    rfl
  have hempty : @unpackMantissa Format.binary64 b = 0#52 ↔ f = 0 := by
    rw [← BitVec.toNat_inj, hmantissa]
    rfl
  rw [hb, Parts.ofBits_fields negative he hf]
  have hfinite : ∀ {m m' : ℕ} {q q' : ℤ} (hm : 0 < m) (hm' : 0 < m'), m = m' → q = q' →
      UnpackedFloat.finite (signOf negative) m q hm = .finite (signOf negative) m' q' hm' := by
    rintro m _ q _ hm hm' rfl rfl
    rfl
  unfold UnpackedFloat.unpack
  dsimp only
  rw [hsign]
  by_cases h2047 : e = 2047
  · rw [if_pos (hall.mpr h2047), if_pos h2047]
    by_cases hf0 : f = 0
    · rw [if_pos (hempty.mpr hf0), if_pos hf0]
      rfl
    · rw [if_neg (hempty.not.mpr hf0), if_neg hf0]
      rfl
  · rw [if_neg (hall.not.mpr h2047), if_neg h2047, Parts.unpacked, Binary.ofFields]
    by_cases h0 : e = 0
    · rw [if_pos (hnone.mpr h0), if_pos h0, Binary.unpacked]
      by_cases hf0 : f = 0
      · rw [dif_pos (hempty.mpr hf0), dif_pos hf0]
      · rw [dif_neg (hempty.not.mpr hf0), dif_neg hf0]
        refine hfinite _ _ hmantissa ?_
        rw [hexponent, h0]
        rfl
    · rw [if_neg (hnone.not.mpr h0), if_neg h0, Binary.unpacked, dif_neg (by simp)]
      refine hfinite _ _ ?_ ?_
      · rw [toNat_implicit_append, hmantissa]
        rfl
      · rw [hexponent]
        rfl

/-- The unpacked form of a number is made of its parts. -/
theorem unpack_toModel (x : Float) : x.toModel.unpack = (Parts.ofFloat x).unpacked :=
  unpack_eq _

/-! ## Packing -/

/-- The floating-point number with the given unpacked form. -/
def packed (u : UnpackedFloat) : Float :=
  .ofModel (.pack u)

theorem ofFloat_packed (u : UnpackedFloat) :
    Parts.ofFloat (packed u) = Parts.ofBits (UnpackedFloat.pack Format.binary64 u).toNat :=
  rfl

@[simp] theorem signOf_beq_negative (negative : Bool) :
    (signOf negative == .negative) = negative := by
  cases negative <;> rfl

@[simp] theorem ofFloat_packed_zero (negative : Bool) :
    Parts.ofFloat (packed (.zero (signOf negative))) = .finite ⟨negative, 0, -1074, false⟩ := by
  cases negative <;> rfl

@[simp] theorem ofFloat_packed_infinity (negative : Bool) :
    Parts.ofFloat (packed (.infinity (signOf negative))) = .infinite negative := by
  cases negative <;> rfl

/-- Digits and exponent that fit are kept, an exponent that is too large overflows. -/
theorem ofFloat_packed_finite (negative : Bool) {m : ℕ} {q : ℤ} (hm : 0 < m) (hlt : m < 2 ^ 53)
    (hq : -1074 ≤ q) (hnormal : 2 ^ 52 ≤ m ∨ q = -1074) :
    Parts.ofFloat (packed (.finite (signOf negative) m q hm)) =
      if q ≤ 971 then .finite ⟨negative, m, q, decide (m = 2 ^ 52 ∧ q ≠ -1074)⟩
      else .infinite negative := by
  have hlog : m.log2 + 1 = 53 ↔ 2 ^ 52 ≤ m := by
    have hup := (Nat.log2_lt hm.ne').mpr hlt
    have hlow := Nat.le_log2 hm.ne' (k := 52)
    omega
  have hover : 2 ^ 11 ≤ (q + (1023 : ℕ) + (52 : ℕ)).toNat + 1 ↔ ¬ q ≤ 971 := by omega
  have hbias : (2 ^ (11 - 1) - 1 : ℕ) = 1023 := rfl
  rw [ofFloat_packed]
  unfold UnpackedFloat.pack
  simp only [Format.exponentBias, mantissaBits_eq, hbias, hover, hlog]
  by_cases hfits : q ≤ 971
  · rw [if_pos hfits, if_neg (not_not.mpr hfits)]
    by_cases hleading : 2 ^ 52 ≤ m
    · -- the leading one is implicit, and the exponent is not the one of the subnormal values
      rw [if_pos hleading, toNat_packComponents, signOf_beq_negative, Parts.ofBits_fields _
        (BitVec.isLt _) (BitVec.isLt _), BitVec.toNat_ofNat, BitVec.toNat_ofNat]
      have hexponent : (q + (1023 : ℕ) + (52 : ℕ)).toNat % 2 ^ 11 = (q + 1075).toNat := by omega
      have hfraction : m % 2 ^ 52 = m - 2 ^ 52 := by omega
      have hm' : Nat.pow 2 52 + (m - 2 ^ 52) = m := by simp only [Nat.pow_eq]; omega
      have hq' : ((q + 1075).toNat : ℤ) - 1075 = q := by omega
      have hnarrow : (m - 2 ^ 52 == 0 && (q + 1075).toNat != 1) =
          decide (m = 2 ^ 52 ∧ q ≠ -1074) := by
        rw [Bool.eq_iff_iff]
        simp only [Bool.and_eq_true, beq_iff_eq, bne_iff_ne, decide_eq_true_eq]
        omega
      rw [hexponent, hfraction, if_neg (by omega), Binary.ofFields, if_neg (by omega), hm', hq',
        hnarrow]
    · have hq' : q = -1074 := by omega
      rw [if_neg hleading, toNat_packComponents, signOf_beq_negative, Parts.ofBits_fields _
        (BitVec.isLt _) (BitVec.isLt _), BitVec.toNat_ofNat, BitVec.toNat_ofNat,
        Nat.mod_eq_of_lt (by omega : m < 2 ^ 52)]
      simp [Binary.ofFields, hq']
  · rw [if_neg hfits, if_pos hfits, packedInfinity, toNat_packComponents, signOf_beq_negative]
    exact Parts.ofBits_fields negative (BitVec.isLt _) (BitVec.isLt _)

/-! ## Finite values -/

/-- Whatever the bits hold is canonical. -/
theorem canonical_ofFields (negative : Bool) {e f : ℕ} (he : e < 2 ^ 11) (hne : e ≠ 2047)
    (hf : f < 2 ^ 52) : (Binary.ofFields negative e f).Canonical := by
  unfold Binary.ofFields
  split
  · exact ⟨by simp only; omega, by simp, by simp, .inr rfl, by simp⟩
  · refine ⟨?_, ?_, ?_, ?_, ?_⟩ <;> simp only [Nat.pow_eq]
    · omega
    · omega
    · omega
    · omega
    · rw [Bool.eq_iff_iff]
      simp only [Bool.and_eq_true, beq_iff_eq, bne_iff_ne, decide_eq_true_eq]
      omega

theorem exists_fields_of_ofFloat {x : Float} {b : Binary} (h : Parts.ofFloat x = .finite b) :
    ∃ negative e f, e < 2 ^ 11 ∧ e ≠ 2047 ∧ f < 2 ^ 52 ∧
      x.toBits.toNat = signBit negative + e * 2 ^ 52 + f ∧ b = Binary.ofFields negative e f := by
  obtain ⟨negative, e, f, he, hf, hbits⟩ := exists_fields x.toBits.toNat_lt
  rw [Parts.ofFloat, hbits, Parts.ofBits_fields negative he hf] at h
  split at h
  · split at h <;> cases h
  · next hne => exact ⟨negative, e, f, he, hne, hf, hbits, (Parts.finite.inj h).symm⟩

theorem canonical_of_ofFloat {x : Float} {b : Binary} (h : Parts.ofFloat x = .finite b) :
    b.Canonical := by
  obtain ⟨negative, e, f, he, hne, hf, -, rfl⟩ := exists_fields_of_ofFloat h
  exact canonical_ofFields negative he hne hf

/-- A finite number is determined by its parts. -/
theorem eq_of_ofFloat_eq {x y : Float} {b : Binary} (hx : Parts.ofFloat x = .finite b)
    (hy : Parts.ofFloat y = .finite b) : x = y := by
  obtain ⟨nx, ex, fx, -, -, hfx, hbx, hb⟩ := exists_fields_of_ofFloat hx
  obtain ⟨ny, ey, fy, -, -, hfy, hby, hb'⟩ := exists_fields_of_ofFloat hy
  have hfields : nx = ny ∧ ex = ey ∧ fx = fy := by
    rw [hb] at hb'
    unfold Binary.ofFields at hb'
    simp only [Nat.pow_eq] at hb'
    split at hb' <;> split at hb' <;> simp only [Binary.mk.injEq] at hb' <;>
      exact ⟨hb'.1, by omega, by omega⟩
  obtain ⟨rfl, rfl, rfl⟩ := hfields
  have hbits : x.toBits = y.toBits := UInt64.toNat_inj.mp (hbx.trans hby.symm)
  rcases x with ⟨⟨bits, _⟩⟩
  rcases y with ⟨⟨bits', _⟩⟩
  obtain rfl : bits = bits' := hbits
  rfl

end PocketCalc.Decimal
