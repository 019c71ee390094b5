import PocketCalculator.Number.Decimal
import PocketCalculator.Proofs.Number.Bits

/-! # Opposite doubles

The sign of a double stands apart from its other fields.  So the opposite of a factor gives the
opposite product (`double_neg_mul`, `double_neg_div`), a difference is a sum with the opposite
(`double_sub_eq_add_neg`), and a decimal with a minus is read as the opposite of the decimal without
it (`Decimal.toFloat_negative`).

The sign of zero is the one thing that addition does not keep.  `EqUpToZero` leaves it out of
account: to add a zero changes nothing but that sign (`eqUpToZero_zero_add`). -/

namespace PocketCalculator

open Float.Model (Format UnpackedFloat)
open Float.Model.UnpackedFloat (packComponents unpackSign unpackExponent unpackMantissa Sign
  roundWithAccuracy)

/-! ### The sign of a pattern -/

theorem unpackSign_packComponents (s : Sign) (e : BitVec 11) (m : BitVec 52) :
    unpackSign (packComponents .binary64 s e m) = s.toBitVec := by
  apply BitVec.eq_of_getLsbD_eq
  intro i hi
  have hi0 : i = 0 := by omega
  subst hi0
  simp only [unpackSign, packComponents, BitVec.getLsbD_cast, BitVec.getLsbD_extractLsb,
    BitVec.getLsbD_append]
  rfl

theorem Sign.ofBitVec_toBitVec (s : Sign) : Sign.ofBitVec s.toBitVec = s := by
  cases s <;> rfl

theorem unpack_packComponents_neg (s : Sign) (e : BitVec 11) (m : BitVec 52) :
    UnpackedFloat.unpack .binary64 (packComponents .binary64 (-s) e m) =
      (UnpackedFloat.unpack .binary64 (packComponents .binary64 s e m)).neg := by
  simp only [UnpackedFloat.unpack, unpackSign_packComponents, Sign.ofBitVec_toBitVec,
    UnpackedFloat.unpackExponent_packComponents, UnpackedFloat.unpackMantissa_packComponents]
  split
  · split <;> rfl
  · split
    · split <;> rfl
    · rfl

theorem neg_unpack_pack (z : UnpackedFloat) :
    UnpackedFloat.unpack .binary64 (z.neg.pack .binary64) =
      (UnpackedFloat.unpack .binary64 (z.pack .binary64)).neg := by
  cases z with
  | notANumber => rfl
  | infinity s => exact unpack_packComponents_neg s _ _
  | zero s => exact unpack_packComponents_neg s _ _
  | finite s m e hm =>
      simp only [UnpackedFloat.neg, UnpackedFloat.pack]
      split
      · exact unpack_packComponents_neg s _ _
      · split
        · exact unpack_packComponents_neg s _ _
        · exact unpack_packComponents_neg s _ _

/-! ### Opposites -/

theorem ofModel_pack_unpack (x : Float) : Float.ofModel (.pack x.toModel.unpack) = x :=
  ofBits_toBits x

theorem ofModel_pack_neg (z : UnpackedFloat) :
    Float.ofModel (.pack z.neg) = -Float.ofModel (.pack z) := by
  have h : (Float.Model.pack z.neg).unpack = (Float.Model.pack z).unpack.neg := neg_unpack_pack z
  have hp := ofModel_pack_unpack (Float.ofModel (.pack z.neg))
  change Float.ofModel (.pack (Float.Model.pack z.neg).unpack) = _ at hp
  rw [← hp, h]
  rfl

theorem unpack_neg (x : Float) : (-x).toModel.unpack = x.toModel.unpack.neg := by
  have h := neg_unpack_pack x.toModel.unpack
  have hx := congrArg (fun y : Float => y.toModel.unpack.neg) (ofModel_pack_unpack x)
  exact h.trans hx

/-! ### Products and quotients -/

theorem Sign.neg_mul (s t : Sign) : -s * t = -(s * t) := by
  cases s <;> cases t <;> rfl

theorem Sign.neg_div (s t : Sign) : -s / t = -(s / t) := by
  cases s <;> cases t <;> rfl

theorem roundWithAccuracy_neg (s : Sign) (m : Nat) (e : Int)
    (accuracy : Float.Model.UnpackedFloat.Accuracy) :
    roundWithAccuracy .binary64 (-s) m e accuracy =
      (roundWithAccuracy .binary64 s m e accuracy).neg := by
  unfold roundWithAccuracy
  dsimp only
  split <;> rfl

theorem unpacked_neg_mul (a b : UnpackedFloat) :
    a.neg.mul .binary64 b = (a.mul .binary64 b).neg := by
  cases a <;> cases b <;>
    simp only [UnpackedFloat.neg, UnpackedFloat.mul, Sign.neg_mul, roundWithAccuracy_neg]

theorem unpacked_neg_div (a b : UnpackedFloat) :
    a.neg.div .binary64 b = (a.div .binary64 b).neg := by
  cases a <;> cases b <;>
    simp only [UnpackedFloat.neg, UnpackedFloat.div, Sign.neg_div, roundWithAccuracy_neg]

theorem double_neg_mul (x y : Float) : -x * y = -(x * y) := by
  change Float.ofModel (.pack ((-x).toModel.unpack.mul .binary64 y.toModel.unpack)) = _
  rw [unpack_neg, unpacked_neg_mul, ofModel_pack_neg]
  rfl

theorem double_neg_div (x y : Float) : -x / y = -(x / y) := by
  change Float.ofModel (.pack ((-x).toModel.unpack.div .binary64 y.toModel.unpack)) = _
  rw [unpack_neg, unpacked_neg_div, ofModel_pack_neg]
  rfl

/-! ### Sums and differences -/

theorem Sign.neg_apply (s : Sign) (n : Int) : (-s).apply n = -s.apply n := by
  cases s with
  | positive => rfl
  | negative => exact (Int.neg_neg n).symm

theorem unpacked_sub (a b : UnpackedFloat) : a.sub .binary64 b = a.add .binary64 b.neg := by
  cases a <;> cases b <;>
    simp only [UnpackedFloat.neg, UnpackedFloat.sub, UnpackedFloat.add, Sign.neg_apply,
      Int.sub_eq_add_neg]

theorem double_sub_eq_add_neg (x y : Float) : x - y = x + -y := by
  change Float.ofModel (.pack (x.toModel.unpack.sub .binary64 y.toModel.unpack)) = _
  rw [unpacked_sub, ← unpack_neg]
  rfl

/-! ### Zeros -/

theorem unpack_zero : (0 : Float).toModel.unpack = .zero .positive := by
  rfl

theorem beq_zero_iff {x : Float} : (x == 0) = true ↔ ∃ s, x.toModel.unpack = .zero s := by
  change (x.toModel.unpack.compare (0 : Float).toModel.unpack == some .eq) = true ↔ _
  rw [unpack_zero]
  cases x.toModel.unpack with
  | notANumber => simp [UnpackedFloat.compare]
  | infinity s => cases s <;> simp [UnpackedFloat.compare]
  | zero s => simp [UnpackedFloat.compare]
  | finite s => cases s <;> simp [UnpackedFloat.compare]

/-- The same double but for the sign of zero. -/
def EqUpToZero (x y : Float) : Prop :=
  x = y ∨ (x == 0) = true ∧ (y == 0) = true

namespace EqUpToZero

variable {x y z : Float}

theorem refl (x : Float) : EqUpToZero x x :=
  .inl rfl

theorem symm (h : EqUpToZero x y) : EqUpToZero y x :=
  h.imp Eq.symm And.symm

theorem trans (h : EqUpToZero x y) (h' : EqUpToZero y z) : EqUpToZero x z := by
  rcases h with rfl | h
  · exact h'
  · rcases h' with rfl | h'
    · exact .inr h
    · exact .inr ⟨h.1, h'.2⟩

end EqUpToZero

theorem eqUpToZero_zero_add {x : Float} (h : (x == 0) = true) (y : Float) :
    EqUpToZero (x + y) y := by
  obtain ⟨s, hs⟩ := beq_zero_iff.1 h
  have hadd : x + y = .ofModel (.pack (x.toModel.unpack.add .binary64 y.toModel.unpack)) := rfl
  have hy := ofModel_pack_unpack y
  rw [hs] at hadd
  cases hu : y.toModel.unpack with
  | zero t =>
      refine .inr ⟨?_, beq_zero_iff.2 ⟨t, hu⟩⟩
      rw [hadd, hu]
      cases s <;> cases t <;> rfl
  | _ =>
      rw [hu] at hadd hy
      exact .inl (hadd.trans hy)

theorem EqUpToZero.add_right {x y : Float} (h : EqUpToZero x y) (z : Float) :
    EqUpToZero (x + z) (y + z) := by
  rcases h with rfl | ⟨hx, hy⟩
  · exact .refl _
  · exact (eqUpToZero_zero_add hx z).trans (eqUpToZero_zero_add hy z).symm

/-! ### Decimals with a minus -/

theorem toNat_packComponents_positive (e : BitVec 11) (m : BitVec 52) :
    (packComponents .binary64 .positive e m).toNat = e.toNat * 2 ^ 52 + m.toNat := by
  change (0#1 ++ e ++ m).toNat = _
  rw [BitVec.toNat_append, ← Nat.shiftLeft_add_eq_or_of_lt m.isLt, BitVec.toNat_append,
    Nat.shiftLeft_eq]
  simp

theorem toNat_packComponents_negative (e : BitVec 11) (m : BitVec 52) :
    (packComponents .binary64 .negative e m).toNat = e.toNat * 2 ^ 52 + m.toNat + 2 ^ 63 := by
  change (1#1 ++ e ++ m).toNat = _
  rw [BitVec.toNat_append, ← Nat.shiftLeft_add_eq_or_of_lt m.isLt, BitVec.toNat_append,
    ← Nat.shiftLeft_add_eq_or_of_lt e.isLt, Nat.shiftLeft_eq, Nat.shiftLeft_eq]
  change (1 * 2 ^ 11 + e.toNat) * 2 ^ 52 + m.toNat = _
  omega

/-- The highest bit of a pattern is the sign. -/
theorem unpack_add_sign {b b' : BitVec Format.binary64.numBits} (h : b.toNat < 2 ^ 63)
    (h' : b'.toNat = b.toNat + 2 ^ 63) :
    UnpackedFloat.unpack .binary64 b' = (UnpackedFloat.unpack .binary64 b).neg := by
  have hb := packComponents_of_parts b
  cases hs : Sign.ofBitVec (unpackSign b) with
  | negative =>
      rw [hs] at hb
      have := congrArg BitVec.toNat hb
      rw [toNat_packComponents_negative] at this
      omega
  | positive =>
      rw [hs] at hb
      have hpos := congrArg BitVec.toNat hb
      rw [toNat_packComponents_positive] at hpos
      have hb' : b' = packComponents .binary64 (-.positive) (unpackExponent b)
          (unpackMantissa b) := by
        apply BitVec.eq_of_toNat_eq
        rw [h', ← hpos]
        exact (toNat_packComponents_negative _ _).symm
      rw [hb', unpack_packComponents_neg, hb]

theorem floatOfMagnitude_true {bits : Nat} (h : bits < 2 ^ 63) :
    floatOfMagnitude true bits = -floatOfMagnitude false bits := by
  have h63 : twoPow 63 = 2 ^ 63 := rfl
  have hb : (BitVec.ofNat 64 bits).toNat = bits := by
    rw [BitVec.toNat_ofNat]
    omega
  have hb' : (BitVec.ofNat 64 (bits + twoPow 63)).toNat = bits + 2 ^ 63 := by
    rw [BitVec.toNat_ofNat]
    omega
  have hneg := @unpack_add_sign (BitVec.ofNat 64 bits) (BitVec.ofNat 64 (bits + twoPow 63))
    (hb.symm ▸ h) (hb'.trans (by rw [hb]))
  exact (congrArg (fun z => Float.ofModel (.pack z)) hneg).trans (ofModel_pack_neg _)

theorem infinityBits_lt : infinityBits < 2 ^ 63 := by
  decide

theorem nearestBits_lt (r : Ratio) : r.nearestBits < 2 ^ 63 := by
  have := infinityBits_lt
  unfold Ratio.nearestBits
  split
  · omega
  · exact Nat.lt_of_le_of_lt (Nat.min_le_right _ _) this

/-- A decimal with a minus is read as the opposite of the decimal without it. -/
theorem Decimal.toFloat_negative (coefficient : Nat) (exponent : Int) :
    toFloat ⟨true, coefficient, exponent⟩ = -toFloat ⟨false, coefficient, exponent⟩ := by
  have hm : magnitude ⟨true, coefficient, exponent⟩ = magnitude ⟨false, coefficient, exponent⟩ :=
    rfl
  have hl : leadingExponent ⟨true, coefficient, exponent⟩ =
      leadingExponent ⟨false, coefficient, exponent⟩ := rfl
  simp only [toFloat, hm, hl]
  split
  · exact floatOfMagnitude_true (Nat.two_pow_pos 63)
  · split
    · exact floatOfMagnitude_true infinityBits_lt
    · exact floatOfMagnitude_true (nearestBits_lt _)

end PocketCalculator
