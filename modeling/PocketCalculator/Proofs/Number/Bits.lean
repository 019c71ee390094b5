import PocketCalculator.Number.Dyadic
import Mathlib

/-! # Doubles and their bits

The bits of a double determine it (`ofBits_toBits`): the model of doubles keeps one pattern only for
what is not a number, and packing undoes unpacking on the patterns that it keeps.  So a finite
double is determined by its sign, mantissa and exponent: `Dyadic.floatOfMagnitude_pattern` puts
the double together again from what `Dyadic.ofFloat?` reads off, and `Dyadic.isSome_ofFloat?` says
that everything finite is read. -/

namespace PocketCalculator

open Float.Model (Format UnpackedFloat)
open Float.Model.UnpackedFloat (packComponents unpackSign unpackExponent unpackMantissa Sign)

/-! ### Packing undoes unpacking -/

theorem Sign.toBitVec_ofBitVec (v : BitVec 1) : (Sign.ofBitVec v).toBitVec = v := by
  have key : ∀ v : BitVec 1, (Sign.ofBitVec v).toBitVec = v := by decide
  exact key v

theorem packComponents_of_parts (b : BitVec Format.binary64.numBits) :
    packComponents .binary64 (Sign.ofBitVec (unpackSign b)) (unpackExponent b) (unpackMantissa b) =
      b := by
  rw [packComponents, Sign.toBitVec_ofBitVec]
  apply BitVec.eq_of_getLsbD_eq
  intro i hi
  change i < 64 at hi
  simp only [BitVec.getLsbD_append, unpackSign, unpackExponent, unpackMantissa,
    BitVec.getLsbD_cast, BitVec.getLsbD_extractLsb]
  by_cases h52 : i < 52
  · simp [h52]
  · by_cases h63 : i < 63
    · have hlt : i - 52 < 11 := by omega
      have hadd : 52 + (i - 52) = i := by omega
      simp [h52, hlt, hadd]
    · have hi63 : i = 63 := by omega
      subst hi63
      simp
      rfl

theorem toNat_unpackExponent_bits (b : BitVec Format.binary64.numBits) :
    (unpackExponent b).toNat = b.toNat / 2 ^ 52 % 2048 := by
  simp only [unpackExponent, BitVec.toNat_cast, BitVec.extractLsb_toNat, Nat.shiftRight_eq_div_pow]

theorem toNat_hidden_append (v : BitVec 52) : (1#1 ++ v).toNat = 2 ^ 52 + v.toNat := by
  rw [BitVec.toNat_append, ← Nat.shiftLeft_add_eq_or_of_lt v.isLt]
  rfl

theorem log2_hidden_append (v : BitVec 52) : (1#1 ++ v).toNat.log2 = 52 := by
  have hv := v.isLt
  rw [toNat_hidden_append]
  exact (Nat.log2_eq_iff (by omega)).2 ⟨by omega, by omega⟩

theorem log2_lt_of_lt {n : Nat} (h0 : n ≠ 0) (h : n < 2 ^ 52) : n.log2 < 52 :=
  (Nat.log2_lt h0).2 h

/-- A mantissa below the hidden bit is packed as it is, under a field of zero for the exponent. -/
theorem pack_subnormal (s : Sign) (v : BitVec Format.binary64.mantissaBitsWithoutImplicit)
    (hpos : 0 < v.toNat) :
    UnpackedFloat.pack .binary64 (.finite s v.toNat (((0 : Nat) : Int) -
        (Format.binary64.exponentBias + Format.binary64.mantissaBitsWithoutImplicit) + 1) hpos) =
      packComponents .binary64 s 0#_ v := by
  have hlog : v.toNat.log2 + 1 ≠ Format.binary64.mantissaBits := by
    have := log2_lt_of_lt hpos.ne' v.isLt
    change v.toNat.log2 + 1 ≠ 53
    omega
  unfold UnpackedFloat.pack
  dsimp only
  rw [if_neg (by decide), if_neg hlog, BitVec.ofNat_toNat, BitVec.setWidth_eq]

/-- The hidden bit is left out when a mantissa with it is packed. -/
theorem pack_normal (s : Sign) (v : BitVec Format.binary64.mantissaBitsWithoutImplicit)
    {f : BitVec Format.binary64.exponentBits} (hf : f.toNat + 1 < 2 ^ 11)
    (hpos : 0 < (1#1 ++ v).toNat) :
    UnpackedFloat.pack .binary64 (.finite s (1#1 ++ v).toNat ((f.toNat : Int) -
        (Format.binary64.exponentBias + Format.binary64.mantissaBitsWithoutImplicit)) hpos) =
      packComponents .binary64 s f v := by
  have hlog : (1#1 ++ v).toNat.log2 + 1 = Format.binary64.mantissaBits := by
    have := log2_hidden_append v
    change (1#1 ++ v).toNat.log2 + 1 = 53
    omega
  have hexp : ((f.toNat : Int) -
      (Format.binary64.exponentBias + Format.binary64.mantissaBitsWithoutImplicit) +
      Format.binary64.exponentBias + Format.binary64.mantissaBitsWithoutImplicit).toNat =
      f.toNat := by
    omega
  have hmant : BitVec.ofNat 52 (1#1 ++ v).toNat = v := by
    apply BitVec.eq_of_toNat_eq
    have h52 := toNat_hidden_append v
    rw [BitVec.toNat_ofNat, h52, Nat.add_mod_left, Nat.mod_eq_of_lt v.isLt]
  unfold UnpackedFloat.pack
  dsimp only
  rw [hexp, if_neg (by omega), if_pos hlog, BitVec.ofNat_toNat, BitVec.setWidth_eq, hmant]

theorem pack_unpack {b : BitVec Format.binary64.numBits} (hv : Format.binary64.Valid b) :
    UnpackedFloat.pack .binary64 (UnpackedFloat.unpack .binary64 b) = b := by
  have hc := packComponents_of_parts b
  unfold UnpackedFloat.unpack
  dsimp only
  split
  · rename_i hmax
    split
    · rename_i h0
      rw [hmax, h0] at hc
      exact hc
    · rename_i h0
      exact (hv.eq_packedNaN hmax h0).symm
  · rename_i hmax
    split
    · rename_i hzero
      rw [hzero] at hc ⊢
      split
      · rename_i h0
        rw [h0] at hc
        exact hc
      · exact (pack_subnormal _ _ _).trans hc
    · have hlt : (unpackExponent b).toNat + 1 < 2 ^ 11 := by
        have he := (unpackExponent b).isLt
        have hne : (unpackExponent b).toNat ≠ 2 ^ 11 - 1 := fun e => by
          refine hmax (BitVec.eq_of_toNat_eq ?_)
          rw [e]
          rfl
        change (unpackExponent b).toNat < 2 ^ 11 at he
        omega
      exact (pack_normal _ _ hlt _).trans hc

/-- The bits of a double determine it. -/
theorem ofBits_toBits (x : Float) : Float.ofBits x.toBits = x := by
  rcases x with ⟨⟨bits, hv⟩⟩
  have hp := pack_unpack hv
  simp only [Float.ofBits, Float.toBits, Float.Model.ofBits, Float.Model.pack, hp]

/-! ### Finite doubles -/

theorem twoPow_eq (k : Nat) : twoPow k = 2 ^ k :=
  rfl

namespace Dyadic

/-- What is read off a finite double: the mantissa has 53 bits at most, and has all of them except
at the bottom of the range. -/
structure Canonical (d : Dyadic) : Prop where
  mantissa_lt : d.mantissa < 2 ^ 53
  least_le : leastExponent ≤ d.exponent
  le_greatest : d.exponent ≤ 971
  hidden : d.exponent = leastExponent ∨ 2 ^ 52 ≤ d.mantissa

/-- The bits below the sign: each step of the exponent carries over the mantissas of one binade. -/
def pattern (d : Dyadic) : Nat :=
  (d.exponent - leastExponent).toNat * twoPow fractionBits + d.mantissa

variable {x : Float} {d : Dyadic}

/-- What is read off a double comes from the fields of its pattern.  The mantissa has its highest
bit from a field of the exponent that is not zero. -/
theorem fields_of_ofFloat? (h : ofFloat? x = some d) :
    x.toBits.toNat / 2 ^ 52 % 2048 ≠ 2047 ∧ d.negative = signBit x ∧
      (x.toBits.toNat / 2 ^ 52 % 2048 = 0 ∧ d.mantissa = x.toBits.toNat % 2 ^ 52 ∧
          d.exponent = -1074 ∨
        x.toBits.toNat / 2 ^ 52 % 2048 ≠ 0 ∧ d.mantissa = x.toBits.toNat % 2 ^ 52 + 2 ^ 52 ∧
          d.exponent = -1074 + ((x.toBits.toNat / 2 ^ 52 % 2048 : Nat) - 1)) := by
  unfold ofFloat? at h
  dsimp only at h
  split at h
  · cases h
  · rename_i hmax
    split at h
    · rename_i hzero
      cases h
      exact ⟨hmax, rfl, .inl ⟨hzero, rfl, rfl⟩⟩
    · rename_i hzero
      cases h
      exact ⟨hmax, rfl, .inr ⟨hzero, rfl, rfl⟩⟩

theorem canonical_of_ofFloat? (h : ofFloat? x = some d) : d.Canonical := by
  have hleast : leastExponent = -1074 := rfl
  obtain ⟨hmax, -, ⟨hzero, hm, he⟩ | ⟨hzero, hm, he⟩⟩ := fields_of_ofFloat? h
  · exact ⟨by omega, by omega, by omega, .inl (by omega)⟩
  · exact ⟨by omega, by omega, by omega, .inr (by omega)⟩

theorem toBits_of_ofFloat? (h : ofFloat? x = some d) :
    x.toBits.toNat = if d.negative then d.pattern + twoPow 63 else d.pattern := by
  have h52 : twoPow fractionBits = 2 ^ 52 := rfl
  have h63 : twoPow 63 = 2 ^ 63 := rfl
  have hleast : leastExponent = -1074 := rfl
  have hlt : x.toBits.toNat < 2 ^ 64 := x.toBits.toNat_lt
  obtain ⟨-, hneg, hfields⟩ := fields_of_ofFloat? h
  have hpattern : d.pattern = x.toBits.toNat % 2 ^ 63 := by
    rw [pattern, h52, hleast]
    obtain ⟨hzero, hm, he⟩ | ⟨hzero, hm, he⟩ := hfields
    · omega
    · omega
  rw [hneg, hpattern, signBit, h63]
  simp only [decide_eq_true_eq]
  split <;> omega

/-- A finite double is the one with its sign and its pattern. -/
theorem floatOfMagnitude_pattern (h : ofFloat? x = some d) :
    floatOfMagnitude d.negative d.pattern = x := by
  rw [floatOfMagnitude, ← toBits_of_ofFloat? h, UInt64.ofNat_toNat, ofBits_toBits]

theorem toNat_unpackExponent (x : Float) :
    (@unpackExponent .binary64 x.toModel.toBits.toBitVec).toNat =
      x.toBits.toNat / 2 ^ 52 % 2048 :=
  toNat_unpackExponent_bits _

theorem isFinite_iff (x : Float) : x.isFinite = true ↔ x.toBits.toNat / 2 ^ 52 % 2048 ≠ 2047 := by
  have he := toNat_unpackExponent x
  have hmax : @unpackExponent .binary64 x.toModel.toBits.toBitVec = -1#_ ↔
      x.toBits.toNat / 2 ^ 52 % 2048 = 2047 := by
    rw [← he, ← BitVec.toNat_inj]
    rfl
  rw [← not_iff_not, Ne, Decidable.not_not, ← hmax, Float.isFinite, Float.Model.isFinite,
    Float.Model.unpack, UnpackedFloat.unpack]
  dsimp only
  split
  · rename_i h
    simp only [h, iff_true]
    split <;> exact Bool.false_ne_true
  · rename_i h
    simp only [h, iff_false, Decidable.not_not]
    split
    · split <;> rfl
    · rfl

/-- Everything finite is read off. -/
theorem isSome_ofFloat? (x : Float) : (ofFloat? x).isSome = x.isFinite := by
  rw [Bool.eq_iff_iff, isFinite_iff, ofFloat?]
  have h52 : twoPow fractionBits = 2 ^ 52 := rfl
  rw [h52]
  split
  · rename_i h
    exact iff_of_false Bool.false_ne_true (fun hne => hne h)
  · rename_i h
    refine iff_of_true ?_ h
    split <;> rfl

theorem exists_of_isFinite (h : x.isFinite = true) : ∃ d, ofFloat? x = some d := by
  rw [← isSome_ofFloat?] at h
  exact Option.isSome_iff_exists.1 h

end Dyadic

end PocketCalculator
