import Formula.Decimal
import Mathlib

/-!
# Sign and magnitude

The bits of a double are a sign, an exponent and a mantissa, and negation turns the sign
over. So a finite double is the one with the bits of its magnitude, or that one negated.
-/

namespace Formula

open Float.Model (Format UnpackedFloat)
open Float.Model.UnpackedFloat

namespace Binary64

abbrev bitsOf (s : UnpackedFloat.Sign) (e : BitVec 11) (m : BitVec 52) :
    BitVec Format.binary64.numBits :=
  packComponents Format.binary64 s e m

variable {s : UnpackedFloat.Sign} {e : BitVec 11} {m : BitVec 52}

theorem toNat_bitsOf (s : UnpackedFloat.Sign) (e : BitVec 11) (m : BitVec 52) :
    (bitsOf s e m).toNat = 2 ^ 63 * s.toBitVec.toNat + (2 ^ 52 * e.toNat + m.toNat) := by
  simp only [bitsOf, packComponents, BitVec.toNat_append]
  rw [← Nat.shiftLeft_add_eq_or_of_lt m.isLt, ← Nat.shiftLeft_add_eq_or_of_lt e.isLt]
  simp only [Nat.shiftLeft_eq]
  omega

theorem unpack_bitsOf_neg (s : UnpackedFloat.Sign) (e : BitVec 11) (m : BitVec 52) :
    unpack Format.binary64 (bitsOf (-s) e m) = (unpack Format.binary64 (bitsOf s e m)).neg := by
  simp only [unpack, unpackMantissa_packComponents, unpackExponent_packComponents,
    unpackSign_packComponents, UnpackedFloat.Sign.ofBitVec_toBitVec]
  split_ifs <;> rfl

theorem pack_unpack_bitsOf (he : e ≠ -1#11) :
    pack Format.binary64 (unpack Format.binary64 (bitsOf s e m)) = bitsOf s e m := by
  rw [pack_unpack, isNaNBits, unpackExponent_packComponents, decide_eq_false (fun h => he h.1)]
  rfl

end Binary64

open Binary64

variable {x : Float} {s : UnpackedFloat.Sign} {e : BitVec 11} {m : BitVec 52}

theorem exists_bitsOf_of_isFinite (hx : x.isFinite = true) :
    ∃ s e m, x.toBits.toBitVec = bitsOf s e m ∧ e ≠ -1#11 := by
  have hb := @packComponents_unpackSign_unpackExponent_unpackMantissa Format.binary64
    x.toBits.toBitVec
  refine ⟨_, _, _, hb.symm, ?_⟩
  intro he
  change (unpack Format.binary64 x.toBits.toBitVec).isFinite = true at hx
  simp only [unpack] at hx
  rw [if_pos he] at hx
  split at hx <;> cases hx

theorem isNaN_of_isFinite (hx : x.isFinite = true) : x.isNaN = false := by
  change (unpack Format.binary64 x.toBits.toBitVec).isFinite = true at hx
  change (unpack Format.binary64 x.toBits.toBitVec).isNaN = false
  cases hu : unpack Format.binary64 x.toBits.toBitVec with
  | notANumber =>
    rw [hu] at hx
    cases hx
  | _ => rfl

theorem toBitVec_ofBits (he : e ≠ -1#11) {w : UInt64} (hw : w.toBitVec = bitsOf s e m) :
    (Float.ofBits w).toBits.toBitVec = bitsOf s e m := by
  change pack Format.binary64 (unpack Format.binary64 w.toBitVec) = bitsOf s e m
  rw [hw, pack_unpack_bitsOf he]

theorem toBitVec_neg (he : e ≠ -1#11) (hx : x.toBits.toBitVec = bitsOf s e m) :
    (-x).toBits.toBitVec = bitsOf (-s) e m := by
  change pack Format.binary64 (unpack Format.binary64 x.toBits.toBitVec).neg = bitsOf (-s) e m
  rw [hx, ← unpack_bitsOf_neg, pack_unpack_bitsOf he]

theorem toNat_positive_lt (he : e ≠ -1#11) : (bitsOf .positive e m).toNat < infinityBits := by
  have hlt := e.isLt
  have hm := m.isLt
  have hmax : e.toNat ≠ 2047 := fun h => he (BitVec.eq_of_toNat_eq h)
  rw [toNat_bitsOf, infinityBits]
  simp only [UnpackedFloat.Sign.toBitVec, BitVec.toNat_zero]
  omega

theorem magnitudeBits_eq (he : e ≠ -1#11) (hx : x.toBits.toBitVec = bitsOf s e m) :
    magnitudeBits x = (bitsOf .positive e m).toNat ∧ (isNegative x = true ↔ s = .negative) := by
  have hlt : (bitsOf .positive e m).toNat < 2 ^ 63 :=
    Nat.lt_trans (toNat_positive_lt he) (by decide)
  have hs : x.toBits.toNat = 2 ^ 63 * s.toBitVec.toNat + (bitsOf .positive e m).toNat := by
    rw [← UInt64.toNat_toBitVec, hx, toNat_bitsOf, toNat_bitsOf]
    simp only [UnpackedFloat.Sign.toBitVec, BitVec.toNat_zero, Nat.mul_zero, Nat.zero_add]
  have h63 : twoPow 63 = 2 ^ 63 := rfl
  rw [magnitudeBits, isNegative, h63, hs, decide_eq_true_eq]
  cases s with
  | negative =>
    have hone : UnpackedFloat.Sign.negative.toBitVec.toNat = 1 := rfl
    rw [hone]
    exact ⟨by omega, iff_of_true (by omega) rfl⟩
  | positive =>
    have hzero : UnpackedFloat.Sign.positive.toBitVec.toNat = 0 := rfl
    rw [hzero]
    refine ⟨by omega, iff_of_false (by omega) ?_⟩
    intro h
    cases h

theorem magnitudeBits_lt (hx : x.isFinite = true) : magnitudeBits x < infinityBits := by
  obtain ⟨s, e, m, hb, he⟩ := exists_bitsOf_of_isFinite hx
  rw [(magnitudeBits_eq he hb).1]
  exact toNat_positive_lt he

theorem ofBits_magnitudeBits (hx : x.isFinite = true) :
    (if isNegative x then -Float.ofBits (magnitudeBits x).toUInt64
      else Float.ofBits (magnitudeBits x).toUInt64) = x := by
  obtain ⟨s, e, m, hb, he⟩ := exists_bitsOf_of_isFinite hx
  obtain ⟨hm, hn⟩ := magnitudeBits_eq he hb
  have hw : (magnitudeBits x).toUInt64.toBitVec = bitsOf .positive e m := by
    rw [hm, Nat.toUInt64_eq, UInt64.toBitVec_ofNat', BitVec.ofNat_toNat]
    exact BitVec.setWidth_eq _
  have hp := toBitVec_ofBits he hw
  apply Float.toBits_inj.mp
  apply UInt64.toBitVec_inj.mp
  cases s with
  | negative =>
    have hneg := toBitVec_neg he hp
    rw [if_pos (hn.mpr rfl), hb]
    exact hneg
  | positive =>
    have hpos : ¬isNegative x = true := by
      intro h
      cases hn.mp h
    rw [if_neg hpos, hb]
    exact hp

end Formula
