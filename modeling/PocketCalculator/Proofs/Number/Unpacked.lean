import PocketCalculator.Proofs.Number.Nearest
import PocketCalculator.Proofs.Number.Opposites
import PocketCalculator.Proofs.Number.Positional

/-! # Doubles and what is read off them

What `Dyadic.ofFloat?` reads off a double can be written back, and what is written is read again
(`Dyadic.ofFloat?_floatOfMagnitude`).  It is also what the operations on doubles work with
(`Dyadic.toModel_unpack`), so the size and the order of doubles are those of the numbers that they
stand for: `Dyadic.ofFloat?_abs`, `Dyadic.double_le_iff`. -/

namespace PocketCalculator

open Float.Model (Format UnpackedFloat)
open Float.Model.UnpackedFloat (unpackSign unpackExponent unpackMantissa Sign)

/-! ### Reading what has been written -/

theorem toNat_toBits_ofBits {n : Nat} (h : n < 2 ^ 64) (hfield : n / 2 ^ 52 % 2048 ≠ 2047) :
    (Float.ofBits (UInt64.ofNat n)).toBits.toNat = n := by
  have hn : (BitVec.ofNat 64 n).toNat = n := by
    rw [BitVec.toNat_ofNat]
    omega
  have hvalid : Format.binary64.Valid (BitVec.ofNat 64 n) := by
    refine ⟨fun hmax => absurd ?_ hfield⟩
    have := congrArg BitVec.toNat hmax
    rw [toNat_unpackExponent_bits, hn] at this
    exact this
  have hpack := congrArg BitVec.toNat (pack_unpack hvalid)
  rw [hn] at hpack
  exact hpack

namespace Dyadic

variable {x y : Float} {d : Dyadic}

/-- The double that a dyadic stands for is read as this dyadic. -/
theorem ofFloat?_floatOfMagnitude (hc : d.Canonical) :
    ofFloat? (floatOfMagnitude d.negative d.pattern) = some d := by
  have h63 : twoPow 63 = 2 ^ 63 := rfl
  have h52 : twoPow fractionBits = 2 ^ 52 := rfl
  have hleast : leastExponent = -1074 := rfl
  obtain ⟨hm, hlow, hhigh, hhidden⟩ := hc
  obtain ⟨negative, m, e⟩ := d
  dsimp only at hm hlow hhigh hhidden
  have hfields : pattern ⟨negative, m, e⟩ = (e + 1074).toNat * 2 ^ 52 + m := by
    rw [pattern, h52, hleast]
    congr 3
  generalize pattern ⟨negative, m, e⟩ = p at hfields
  have hp : p / 2 ^ 52 % 2048 ≠ 2047 ∧ p < 2 ^ 63 := by
    rw [hleast] at hlow
    omega
  have hbits : (floatOfMagnitude negative p).toBits.toNat =
      if negative then p + 2 ^ 63 else p := by
    rw [floatOfMagnitude, h63]
    cases negative with
    | false => exact toNat_toBits_ofBits (by simp; omega) (by simpa using hp.1)
    | true => exact toNat_toBits_ofBits (by simp; omega) (by simp; omega)
  have hsign : signBit (floatOfMagnitude negative p) = negative := by
    rw [signBit, hbits, h63]
    cases negative with
    | false => exact decide_eq_false (by simp; omega)
    | true => exact decide_eq_true (by simp)
  have hfield : (if negative then p + 2 ^ 63 else p) / 2 ^ 52 % 2048 = p / 2 ^ 52 := by
    split <;> omega
  have hfraction : (if negative then p + 2 ^ 63 else p) % 2 ^ 52 = p % 2 ^ 52 := by
    split <;> omega
  rw [ofFloat?, hsign, hbits, h52]
  simp only [hfield, hfraction, hleast]
  rw [if_neg (by omega)]
  by_cases hm52 : 2 ^ 52 ≤ m
  · rw [if_neg (by omega)]
    congr 2 <;> omega
  · have he : e = -1074 := hhidden.resolve_right hm52
    rw [if_pos (by omega)]
    congr 2 <;> omega

/-! ### What the operations work with -/

theorem toNat_unpackMantissa (x : Float) :
    (@unpackMantissa .binary64 x.toModel.toBits.toBitVec).toNat = x.toBits.toNat % 2 ^ 52 := by
  simp only [unpackMantissa, BitVec.toNat_cast, BitVec.extractLsb_toNat, Nat.shiftRight_zero]
  rfl

theorem toNat_unpackSign_bits (b : BitVec Format.binary64.numBits) :
    (unpackSign b).toNat = b.toNat / 2 ^ 63 := by
  have hb : b.toNat < 2 ^ 64 := b.isLt
  simp only [unpackSign, BitVec.toNat_cast, BitVec.extractLsb_toNat, Nat.shiftRight_eq_div_pow]
  change b.toNat / 2 ^ 63 % 2 = _
  omega

/-- The sign that the operations on doubles work with. -/
def sign (negative : Bool) : Sign :=
  if negative then .negative else .positive

theorem ofBitVec_unpackSign (x : Float) :
    Sign.ofBitVec (@unpackSign .binary64 x.toModel.toBits.toBitVec) = sign (signBit x) := by
  have h := @toNat_unpackSign_bits x.toModel.toBits.toBitVec
  have hlt : x.toBits.toNat < 2 ^ 64 := x.toBits.toNat_lt
  change _ = x.toBits.toNat / 2 ^ 63 at h
  have h63 : twoPow 63 = 2 ^ 63 := rfl
  rw [signBit, h63, sign]
  by_cases hs : 2 ^ 63 ≤ x.toBits.toNat
  · have h1 : @unpackSign .binary64 x.toModel.toBits.toBitVec = 1#1 :=
      BitVec.eq_of_toNat_eq (by rw [h]; simp; omega)
    rw [h1, if_pos (decide_eq_true hs)]
    rfl
  · have h0 : @unpackSign .binary64 x.toModel.toBits.toBitVec = 0#1 :=
      BitVec.eq_of_toNat_eq (by rw [h]; simp; omega)
    rw [h0, if_neg (by simpa using hs)]
    rfl

/-- The operations work with the dyadic of a finite double that is not zero. -/
theorem toModel_unpack (h : ofFloat? x = some d) (hm : 0 < d.mantissa) :
    x.toModel.unpack = .finite (sign d.negative) d.mantissa d.exponent hm := by
  obtain ⟨hmax, hneg, hfields⟩ := fields_of_ofFloat? h
  have hexp := toNat_unpackExponent x
  have hman := toNat_unpackMantissa x
  rw [Float.Model.unpack, UnpackedFloat.unpack, ofBitVec_unpackSign, ← hneg]
  dsimp only
  rw [if_neg (fun e => hmax (by rw [← hexp, e]; rfl))]
  have hbias : ((Format.binary64.exponentBias : Nat) + Format.binary64.mantissaBitsWithoutImplicit :
    Int) = 1075 := rfl
  rw [hbias, hexp]
  obtain ⟨hzero, hm', he⟩ | ⟨hzero, hm', he⟩ := hfields
  · rw [if_pos (BitVec.eq_of_toNat_eq (y := 0#11) (hexp.trans hzero)), dif_neg]
    · congr 1
      · rw [hman, hm']
      · omega
    · intro e
      rw [e] at hman
      rw [hm', ← hman] at hm
      cases hm
  · rw [if_neg (fun e => hzero (by rw [← hexp, e]; rfl))]
    congr 1
    · rw [toNat_hidden_append, hman, hm', Nat.add_comm]
    · omega

theorem toModel_unpack_zero (h : ofFloat? x = some d) (hm : d.mantissa = 0) :
    x.toModel.unpack = .zero (sign d.negative) := by
  obtain ⟨hmax, hneg, hfields⟩ := fields_of_ofFloat? h
  have hexp := toNat_unpackExponent x
  have hman := toNat_unpackMantissa x
  obtain ⟨hzero, hm', he⟩ | ⟨hzero, hm', he⟩ := hfields
  · rw [Float.Model.unpack, UnpackedFloat.unpack, ofBitVec_unpackSign, ← hneg]
    dsimp only
    rw [if_neg (fun e => hmax (by rw [← hexp, e]; rfl)),
      if_pos (BitVec.eq_of_toNat_eq (y := 0#11) (hexp.trans hzero)),
      dif_pos (BitVec.eq_of_toNat_eq (y := 0#52) (hman.trans (hm'.symm.trans hm)))]
  · omega

theorem ofModel_pack_finite (hc : d.Canonical) (hm : 0 < d.mantissa) :
    Float.ofModel (.pack (.finite (sign d.negative) d.mantissa d.exponent hm)) =
      floatOfMagnitude d.negative d.pattern := by
  rw [← toModel_unpack (ofFloat?_floatOfMagnitude hc) hm]
  exact ofModel_pack_unpack _

theorem ofModel_pack_zero (negative : Bool) :
    Float.ofModel (.pack (.zero (sign negative))) = floatOfMagnitude negative 0 := by
  cases negative <;> rfl

/-! ### The size and the sign -/

theorem Canonical.withSign (hc : d.Canonical) (negative : Bool) :
    ({ d with negative := negative } : Dyadic).Canonical :=
  ⟨hc.mantissa_lt, hc.least_le, hc.le_greatest, hc.hidden⟩

theorem Canonical.pattern_eq_zero (hc : d.Canonical) (hm : d.mantissa = 0) : d.pattern = 0 := by
  have he : d.exponent = leastExponent := hc.hidden.resolve_right (by omega)
  rw [pattern, he, hm, sub_self, Int.toNat_zero, Nat.zero_mul]

theorem ofFloat?_abs (h : ofFloat? x = some d) :
    ofFloat? x.abs = some { d with negative := false } := by
  have hc := (canonical_of_ofFloat? h).withSign false
  rw [← ofFloat?_floatOfMagnitude hc]
  congr 1
  change Float.ofModel (.pack x.toModel.unpack.abs) = _
  by_cases hm : d.mantissa = 0
  · rw [toModel_unpack_zero h hm, hc.pattern_eq_zero hm]
    exact ofModel_pack_zero false
  · rw [toModel_unpack h (Nat.pos_of_ne_zero hm)]
    exact ofModel_pack_finite hc (Nat.pos_of_ne_zero hm)

theorem sign_not (negative : Bool) : sign (!negative) = -sign negative := by
  cases negative <;> rfl

theorem ofFloat?_neg (h : ofFloat? x = some d) :
    ofFloat? (-x) = some { d with negative := !d.negative } := by
  have hc := (canonical_of_ofFloat? h).withSign (!d.negative)
  rw [← ofFloat?_floatOfMagnitude hc]
  congr 1
  change Float.ofModel (.pack x.toModel.unpack.neg) = _
  by_cases hm : d.mantissa = 0
  · rw [toModel_unpack_zero h hm, hc.pattern_eq_zero hm, ← ofModel_pack_zero, sign_not]
    rfl
  · have hpack := ofModel_pack_finite hc (Nat.pos_of_ne_zero hm)
    rw [sign_not] at hpack
    rw [toModel_unpack h (Nat.pos_of_ne_zero hm)]
    exact hpack

/-! ### The order -/

/-- Canonical dyadics are ordered by their exponents, and then by their mantissas. -/
theorem Canonical.magnitude_lt {a b : Dyadic} (ha : a.Canonical) (hb : b.Canonical)
    (h : a.exponent < b.exponent ∨ a.exponent = b.exponent ∧ a.mantissa < b.mantissa) :
    a.magnitude.toRat < b.magnitude.toRat := by
  rw [toRat_magnitude, toRat_magnitude]
  have hpos : (0 : ℚ) < 2 ^ a.exponent := zpow_pos two_pos _
  rcases h with hlt | ⟨heq, hlt⟩
  · have hhidden : 2 ^ 52 ≤ b.mantissa := hb.hidden.resolve_left (by have := ha.least_le; omega)
    have ham : (a.mantissa : ℚ) < 2 ^ 53 := by exact_mod_cast ha.mantissa_lt
    have hbm : (2 : ℚ) ^ 52 ≤ b.mantissa := by exact_mod_cast hhidden
    calc (a.mantissa : ℚ) * 2 ^ a.exponent < 2 ^ 53 * 2 ^ a.exponent :=
          mul_lt_mul_of_pos_right ham hpos
      _ = 2 ^ 52 * 2 ^ (a.exponent + 1) := by
          rw [zpow_add_one₀ two_ne_zero]
          ring
      _ ≤ b.mantissa * 2 ^ b.exponent :=
          mul_le_mul hbm (zpow_le_zpow_right₀ one_le_two hlt) (zpow_pos two_pos _).le
            (Nat.cast_nonneg _)
  · rw [← heq]
    exact mul_lt_mul_of_pos_right (by exact_mod_cast hlt) hpos

theorem double_le_iff_unpack (x y : Float) :
    x ≤ y ↔ x.toModel.unpack.le y.toModel.unpack = true := by
  change decide (x.toModel ≤ y.toModel) = true ↔ _
  rw [decide_eq_true_iff]
  rfl

theorem Canonical.isLE_compare_iff {a b : Dyadic} (ha : a.Canonical) (hb : b.Canonical) :
    ((compare a.exponent b.exponent).then (compare a.mantissa b.mantissa)).isLE = true ↔
      a.magnitude.toRat ≤ b.magnitude.toRat := by
  rcases lt_trichotomy a.exponent b.exponent with he | he | he
  · rw [Int.compare_eq_lt.2 he]
    exact iff_of_true rfl (ha.magnitude_lt hb (.inl he)).le
  · rw [Int.compare_eq_eq.2 he]
    rcases lt_trichotomy a.mantissa b.mantissa with hm | hm | hm
    · rw [Nat.compare_eq_lt.2 hm]
      exact iff_of_true rfl (ha.magnitude_lt hb (.inr ⟨he, hm⟩)).le
    · rw [Nat.compare_eq_eq.2 hm, toRat_magnitude, toRat_magnitude, he, hm]
      exact iff_of_true rfl le_rfl
    · rw [Nat.compare_eq_gt.2 hm]
      exact iff_of_false Bool.false_ne_true
        (not_le.2 (hb.magnitude_lt ha (.inr ⟨he.symm, hm⟩)))
  · rw [Int.compare_eq_gt.2 he]
    exact iff_of_false Bool.false_ne_true (not_le.2 (hb.magnitude_lt ha (.inl he)))

/-- Doubles that are not below zero are ordered like the numbers that they stand for. -/
theorem double_le_iff {a b : Dyadic} (hx : ofFloat? x = some a) (hy : ofFloat? y = some b)
    (ha : a.negative = false) (hb : b.negative = false) :
    x ≤ y ↔ a.magnitude.toRat ≤ b.magnitude.toRat := by
  have hsign : sign false = .positive := rfl
  rw [double_le_iff_unpack, UnpackedFloat.le]
  rcases Nat.eq_zero_or_pos a.mantissa with ha0 | ha0
  · have hzero : a.magnitude.toRat = 0 := by rw [toRat_magnitude, ha0, Nat.cast_zero, zero_mul]
    rw [toModel_unpack_zero hx ha0, ha, hsign, hzero]
    refine iff_of_true ?_ b.magnitude.toRat_nonneg
    rcases Nat.eq_zero_or_pos b.mantissa with hb0 | hb0
    · rw [toModel_unpack_zero hy hb0]
      rfl
    · rw [toModel_unpack hy hb0, hb]
      rfl
  · rw [toModel_unpack hx ha0, ha, hsign]
    rcases Nat.eq_zero_or_pos b.mantissa with hb0 | hb0
    · have hzero : b.magnitude.toRat = 0 := by rw [toRat_magnitude, hb0, Nat.cast_zero, zero_mul]
      have hpos : 0 < a.magnitude.toRat := by
        rw [toRat_magnitude]
        exact mul_pos (Nat.cast_pos.2 ha0) (zpow_pos two_pos _)
      rw [toModel_unpack_zero hy hb0, hb, hzero]
      exact iff_of_false Bool.false_ne_true (not_le.2 hpos)
    · rw [toModel_unpack hy hb0, hb]
      exact (canonical_of_ofFloat? hx).isLE_compare_iff (canonical_of_ofFloat? hy)

end Dyadic
end PocketCalculator
