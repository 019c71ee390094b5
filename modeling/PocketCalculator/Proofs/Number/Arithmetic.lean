import PocketCalculator.Proofs.Number.Quotient
import PocketCalculator.Proofs.Number.RoundedValue

/-! # Arithmetic of doubles that are not below zero

A double that is not below zero holds a number (`Holds`), and each operation on two such doubles
holds the number nearest to what the operation is on their numbers: `Holds.mul`, `Holds.div`,
`Holds.add`, `Holds.sub`.  A product is only infinite when the nearest number is beyond the range of
doubles (`Holds.mul_of_isFinite`); small sums and products never are (`Holds.add_small`,
`Holds.mul_small`). -/

namespace PocketCalculator

open Float.Model (UnpackedFloat)
open Float.Model.UnpackedFloat (roundWithAccuracy decreaseExponent)

/-! ### What a double holds -/

theorem isFinite_iff_not_special (x : Float) :
    x.isFinite = true ↔ x.isInf = false ∧ x.isNaN = false := by
  change x.toModel.unpack.isFinite = true ↔
    x.toModel.unpack.isInf = false ∧ x.toModel.unpack.isNaN = false
  cases x.toModel.unpack <;>
    simp [UnpackedFloat.isFinite, UnpackedFloat.isInf, UnpackedFloat.isNaN]

theorem Dyadic.Canonical.toRat_lt {d : Dyadic} (hc : d.Canonical) :
    d.magnitude.toRat < 2 ^ (1024 : ℤ) := by
  rw [toRat_magnitude]
  calc (d.mantissa : ℚ) * 2 ^ d.exponent < 2 ^ 53 * 2 ^ d.exponent :=
        mul_lt_mul_of_pos_right (by exact_mod_cast hc.mantissa_lt) (zpow_pos two_pos _)
    _ ≤ 2 ^ 53 * 2 ^ (971 : ℤ) :=
        mul_le_mul_of_nonneg_left (zpow_le_zpow_right₀ one_le_two hc.le_greatest) (by norm_num)
    _ = 2 ^ (1024 : ℤ) := by
        rw [← zpow_natCast, ← zpow_add₀ two_ne_zero]
        rfl

/-- A double with a plus that stands for a number. -/
def Holds (x : Float) (a : ℚ) : Prop :=
  ∃ d, Dyadic.ofFloat? x = some d ∧ d.negative = false ∧ d.magnitude.toRat = a

namespace Holds

variable {x y : Float} {a b : ℚ}

theorem isRepresentable (h : Holds x a) : IsRepresentable a := by
  obtain ⟨d, hx, -, rfl⟩ := h
  exact (Dyadic.canonical_of_ofFloat? hx).isRepresentable

theorem nonneg (h : Holds x a) : 0 ≤ a :=
  h.isRepresentable.nonneg

theorem isFinite (h : Holds x a) : x.isFinite = true := by
  obtain ⟨d, hx, -⟩ := h
  rw [← Dyadic.isSome_ofFloat?, hx]
  rfl

theorem lt_infinity (h : Holds x a) : a < 2 ^ (1024 : ℤ) := by
  obtain ⟨d, hx, -, rfl⟩ := h
  exact (Dyadic.canonical_of_ofFloat? hx).toRat_lt

theorem abs (h : Holds x a) : Holds x.abs a := by
  obtain ⟨d, hx, -, rfl⟩ := h
  exact ⟨_, Dyadic.ofFloat?_abs hx, rfl, rfl⟩

theorem le_iff (hx : Holds x a) (hy : Holds y b) : x ≤ y ↔ a ≤ b := by
  obtain ⟨d, hd, hdneg, rfl⟩ := hx
  obtain ⟨e, he, heneg, rfl⟩ := hy
  exact Dyadic.double_le_iff hd he hdneg heneg

end Holds

theorem holds_toFloat {r : Ratio} {a : ℚ} (hr : r.toRat = a) (h : nearestTo a < 2 ^ (1024 : ℤ)) :
    Holds (r.toFloat false) (nearestTo a) := by
  rw [← hr, ← r.nearest_eq_nearestTo] at h ⊢
  exact Ratio.ofFloat?_toFloat h false

theorem holds_abs_toFloat {r : Ratio} {a : ℚ} (hr : r.toRat = a)
    (h : nearestTo a < 2 ^ (1024 : ℤ)) (negative : Bool) :
    Holds (r.toFloat negative).abs (nearestTo a) := by
  rw [← hr, ← r.nearest_eq_nearestTo] at h ⊢
  obtain ⟨d, hd, -, hvalue⟩ := Ratio.ofFloat?_toFloat h negative
  exact ⟨_, Dyadic.ofFloat?_abs hd, rfl, hvalue⟩

theorem holds_of_ofFloat? {x : Float} {m : ℕ} {e : ℤ} {a : ℚ}
    (hx : Dyadic.ofFloat? x = some ⟨false, m, e⟩) (ha : m * 2 ^ e = a) : Holds x a :=
  ⟨⟨false, m, e⟩, hx, rfl, (Dyadic.toRat_magnitude _).trans ha⟩

theorem holds_zero : Holds (floatOfMagnitude false 0) 0 :=
  @holds_of_ofFloat? _ 0 leastExponent _ rfl (by rw [Nat.cast_zero, zero_mul])

theorem nearestTo_lt_of_le {a b : ℚ} (ha : 0 ≤ a) (hb : IsRepresentable b) (hab : a ≤ b)
    (h : b < 2 ^ (1024 : ℤ)) : nearestTo a < 2 ^ (1024 : ℤ) :=
  (nearestTo_le ha hb hab).trans_lt h

theorem holds_nearestToInt {n : ℕ} (h : nearestTo n < 2 ^ (1024 : ℤ)) :
    Holds (nearestToInt n) (nearestTo n) := by
  have hsign : decide ((n : ℤ) < 0) = false := decide_eq_false (by omega)
  rw [nearestToInt, hsign]
  exact holds_toFloat (Ratio.toRat_ofNat n) h

/-! ### Rounding of whole multiples -/

section rounding

variable {n : ℕ} {t : ℤ}

/-- A whole number of units. -/
def unitsRatio (n : ℕ) (t : ℤ) : Ratio :=
  (Ratio.ofNat n).mulTwoPow t

theorem toRat_unitsRatio (n : ℕ) (t : ℤ) : (unitsRatio n t).toRat = n * 2 ^ t := by
  rw [unitsRatio, Ratio.toRat_mulTwoPow, Ratio.toRat_ofNat]

theorem unitsRatio_num_ne_zero (hn : 0 < n) : (unitsRatio n t).num ≠ 0 := by
  apply Ratio.num_ne_zero
  rw [toRat_unitsRatio]
  exact mul_pos (Nat.cast_pos.2 hn) (zpow_pos two_pos t)

theorem describes_unitsRatio (n : ℕ) (t : ℤ) :
    Describes (.ofMantissaAndAccuracy n .exact) ((unitsRatio n t).mulTwoPow (-t)).toRat := by
  rw [Ratio.toRat_mulTwoPow, toRat_unitsRatio, mul_assoc, ← zpow_add₀ two_ne_zero, add_neg_cancel,
    zpow_zero, mul_one]
  exact Describes.exact n

theorem log2_add_le_binaryExponent (hn : 0 < n) :
    (n.log2 : ℤ) + t ≤ (unitsRatio n t).binaryExponent := by
  rw [Ratio.le_binaryExponent_iff (unitsRatio_num_ne_zero hn), toRat_unitsRatio,
    zpow_add₀ two_ne_zero]
  exact mul_le_mul_of_nonneg_right (Ratio.log2_bounds hn.ne').1 (zpow_pos two_pos _).le

/-- A whole number of units that is not finer than the grid is rounded to the nearest double. -/
theorem holds_roundWithAccuracy (hn : 0 < n) (ht : t ≤ (unitsRatio n t).gridExponent)
    (h : nearestTo (n * 2 ^ t) < 2 ^ (1024 : ℤ)) :
    Holds (.ofModel (.pack (roundWithAccuracy .binary64 .positive n t .exact)))
      (nearestTo (n * 2 ^ t)) := by
  have hq := toRat_unitsRatio n t
  have hlt : (unitsRatio n t).nearest < 2 ^ (1024 : ℤ) := by
    rwa [Ratio.nearest_eq_nearestTo, hq]
  have heq := ofModel_pack_roundWithAccuracy false (unitsRatio_num_ne_zero hn)
    (describes_unitsRatio n t) ht hlt
  change Float.ofModel (.pack (roundWithAccuracy .binary64 .positive n t .exact)) = _ at heq
  rw [heq]
  exact holds_toFloat hq h

/-- Rounding first brings a number of units to the grid, if the units are coarser. -/
theorem holds_round (hn : 0 < n) (h : nearestTo (n * 2 ^ t) < 2 ^ (1024 : ℤ)) :
    Holds (.ofModel (.pack (UnpackedFloat.round .binary64 .positive n t)))
      (nearestTo (n * 2 ^ t)) := by
  rw [UnpackedFloat.round, targetExponent_eq, decreaseExponent]
  dsimp only
  generalize hk : (t - max ((n.log2 : ℤ) + t - 52) (-1074)).toNat = k
  have hvalue : ((n <<< k : ℕ) : ℚ) * 2 ^ (t - k) = n * 2 ^ t := by
    rw [Nat.shiftLeft_eq, Nat.cast_mul, Nat.cast_pow, Nat.cast_two, mul_assoc, ← zpow_natCast,
      ← zpow_add₀ two_ne_zero, add_sub_cancel]
  have hpos : 0 < n <<< k := by
    rw [Nat.shiftLeft_eq]
    positivity
  rw [← hvalue] at h ⊢
  refine holds_roundWithAccuracy hpos ?_ h
  have hnum := unitsRatio_num_ne_zero (t := t) hn
  rw [Ratio.gridExponent_congr (s := unitsRatio n t) (unitsRatio_num_ne_zero hpos)
    (by rw [toRat_unitsRatio, toRat_unitsRatio, hvalue])]
  have hlow := log2_add_le_binaryExponent (t := t) hn
  change t - k ≤ max ((unitsRatio n t).binaryExponent - 52) (-1074)
  omega

theorem holds_normalize {m : ℤ} (hm : 0 ≤ m) (h : nearestTo (m * 2 ^ t) < 2 ^ (1024 : ℤ)) :
    Holds (.ofModel (.pack (UnpackedFloat.normalize .binary64 m t .positive)))
      (nearestTo (m * 2 ^ t)) := by
  obtain ⟨n, rfl⟩ := Int.eq_ofNat_of_zero_le hm
  rcases Nat.eq_zero_or_pos n with rfl | hn
  · have hzero : nearestTo (((0 : ℕ) : ℤ) * 2 ^ t) = 0 := by
      rw [Nat.cast_zero, Int.cast_zero, zero_mul, nearestTo_eq isRepresentable_zero]
    rw [hzero]
    exact holds_zero
  · have hgt : compare (n : ℤ) 0 = .gt := Int.compare_eq_gt.2 (by omega)
    rw [UnpackedFloat.normalize, hgt]
    rw [Int.cast_natCast] at h ⊢
    exact holds_round hn h

theorem isFinite_roundWithAccuracy (hn : 0 < n) (ht : t ≤ (unitsRatio n t).gridExponent)
    (h : 2 ^ (1024 : ℤ) ≤ nearestTo (n * 2 ^ t)) :
    (Float.ofModel (.pack (roundWithAccuracy .binary64 .positive n t .exact))).isFinite = false := by
  have hnum := unitsRatio_num_ne_zero (t := t) hn
  have heq := roundWithAccuracy_eq false hnum (describes_unitsRatio n t) ht
  generalize hd : (unitsRatio n t).nearestDyadic false = d at heq
  have hvalue : (2 : ℚ) ^ (1024 : ℤ) ≤ d.mantissa * 2 ^ d.exponent := by
    rw [← d.toRat_magnitude, ← hd, Ratio.nearestDyadic,
      Dyadic.toRat_ofUnits false (Ratio.units_le hnum)]
    change _ ≤ (unitsRatio n t).nearest
    rwa [Ratio.nearest_eq_nearestTo, toRat_unitsRatio]
  have hmantissa : d.mantissa < 2 ^ 53 := by
    rw [← hd, Ratio.nearestDyadic, Dyadic.ofUnits]
    split <;> simp_all
  have hexponent : 972 ≤ d.exponent := by
    have hlt : (2 : ℚ) ^ (1024 : ℤ) < 2 ^ (53 + d.exponent) := by
      refine hvalue.trans_lt ?_
      rw [zpow_add₀ two_ne_zero]
      exact mul_lt_mul_of_pos_right (by exact_mod_cast hmantissa) (zpow_pos two_pos _)
    have := (zpow_lt_zpow_iff_right₀ (one_lt_two : (1 : ℚ) < 2)).1 hlt
    omega
  have hm : d.mantissa ≠ 0 := by
    intro hzero
    rw [hzero, Nat.cast_zero, zero_mul] at hvalue
    exact absurd hvalue (not_le.2 (zpow_pos two_pos _))
  have hsign : Dyadic.sign false = .positive := rfl
  rw [hsign] at heq
  have hpack : UnpackedFloat.pack .binary64 (.finite .positive d.mantissa d.exponent
      (Nat.pos_of_ne_zero hm)) = UnpackedFloat.pack .binary64 (.infinity .positive) := by
    refine if_pos ?_
    change 2 ^ 11 ≤ (d.exponent + (1023 : ℕ) + (52 : ℕ)).toNat + 1
    omega
  have hinfinity : Float.ofModel (.pack (.finite .positive d.mantissa d.exponent
      (Nat.pos_of_ne_zero hm))) = Float.ofModel (.pack (.infinity .positive)) := by
    simp only [Float.Model.pack, hpack]
  rw [heq, dif_neg hm, hinfinity]
  rfl

end rounding

/-! ### The operations -/

/-- What the operations work with. -/
theorem Holds.unpack_cases {x : Float} {a : ℚ} (h : Holds x a) :
    x.toModel.unpack = .zero .positive ∧ a = 0 ∨
      ∃ (m : ℕ) (e : ℤ) (hm : 0 < m), x.toModel.unpack = .finite .positive m e hm ∧
        a = m * 2 ^ e ∧ (e = leastExponent ∨ 2 ^ 52 ≤ m) := by
  obtain ⟨d, hd, hneg, rfl⟩ := h
  have hsign : Dyadic.sign false = .positive := rfl
  rcases Nat.eq_zero_or_pos d.mantissa with hm | hm
  · refine .inl ⟨?_, by rw [d.toRat_magnitude, hm, Nat.cast_zero, zero_mul]⟩
    rw [Dyadic.toModel_unpack_zero hd hm, hneg, hsign]
  · refine .inr ⟨d.mantissa, d.exponent, hm, ?_, d.toRat_magnitude,
      (Dyadic.canonical_of_ofFloat? hd).hidden⟩
    rw [Dyadic.toModel_unpack hd hm, hneg, hsign]

theorem decreaseExponent_value (m : ℕ) {e t : ℤ} (h : t ≤ e) :
    ((decreaseExponent m e t).1 : ℚ) * 2 ^ t = m * 2 ^ e := by
  rw [decreaseExponent]
  dsimp only
  rw [Nat.shiftLeft_eq, Nat.cast_mul, Nat.cast_pow, Nat.cast_two, mul_assoc, ← zpow_natCast,
    ← zpow_add₀ two_ne_zero]
  congr 2
  omega

namespace Holds

variable {x y : Float} {a b : ℚ}

theorem pack_unpack (h : Holds x a) : Holds (.ofModel (.pack x.toModel.unpack)) (nearestTo a) := by
  rw [ofModel_pack_unpack, nearestTo_eq h.isRepresentable]
  exact h

/-- A sum of doubles is the double nearest to the sum of their numbers. -/
theorem add (hx : Holds x a) (hy : Holds y b) (h : nearestTo (a + b) < 2 ^ (1024 : ℤ)) :
    Holds (x + y) (nearestTo (a + b)) := by
  change Holds (.ofModel (.pack (x.toModel.unpack.add .binary64 y.toModel.unpack))) _
  obtain ⟨hux, rfl⟩ | ⟨m, e, hm, hux, rfl, -⟩ := hx.unpack_cases
  · rw [zero_add, hux]
    have hpack := hy.pack_unpack
    obtain ⟨huy, -⟩ | ⟨n, f, hn, huy, -⟩ := hy.unpack_cases
    · rw [huy] at hpack ⊢
      exact hpack
    · rw [huy] at hpack ⊢
      exact hpack
  · obtain ⟨huy, rfl⟩ | ⟨n, f, hn, huy, rfl, -⟩ := hy.unpack_cases
    · have hpack := hx.pack_unpack
      rw [add_zero, huy]
      rw [hux] at hpack ⊢
      exact hpack
    · have hvalue : (((decreaseExponent m e (min e f)).1 + (decreaseExponent n f (min e f)).1 : ℤ) :
          ℚ) * 2 ^ min e f = m * 2 ^ e + n * 2 ^ f := by
        push_cast
        rw [add_mul, decreaseExponent_value m (min_le_left e f),
          decreaseExponent_value n (min_le_right e f)]
      rw [← hvalue] at h ⊢
      rw [hux, huy]
      exact holds_normalize (Int.add_nonneg (Int.natCast_nonneg _) (Int.natCast_nonneg _)) h

/-- A difference of doubles is the double nearest to the difference of their numbers. -/
theorem sub (hx : Holds x a) (hy : Holds y b) (hba : b ≤ a) : Holds (x - y) (nearestTo (a - b)) := by
  have h : nearestTo (a - b) < 2 ^ (1024 : ℤ) :=
    nearestTo_lt_of_le (sub_nonneg.2 hba) hx.isRepresentable (sub_le_self a hy.nonneg)
      hx.lt_infinity
  change Holds (.ofModel (.pack (x.toModel.unpack.sub .binary64 y.toModel.unpack))) _
  obtain ⟨hux, rfl⟩ | ⟨m, e, hm, hux, rfl, -⟩ := hx.unpack_cases
  · obtain rfl : b = 0 := le_antisymm hba hy.nonneg
    obtain ⟨huy, -⟩ | ⟨n, f, hn, huy, hf, -⟩ := hy.unpack_cases
    · rw [hux, huy, sub_zero, nearestTo_eq isRepresentable_zero]
      exact holds_zero
    · exact absurd hf.symm (mul_pos (Nat.cast_pos.2 hn) (zpow_pos two_pos f)).ne'
  · obtain ⟨huy, rfl⟩ | ⟨n, f, hn, huy, rfl, -⟩ := hy.unpack_cases
    · have hpack := hx.pack_unpack
      rw [sub_zero, huy]
      rw [hux] at hpack ⊢
      exact hpack
    · have hvalue : (((decreaseExponent m e (min e f)).1 - (decreaseExponent n f (min e f)).1 : ℤ) :
          ℚ) * 2 ^ min e f = m * 2 ^ e - n * 2 ^ f := by
        push_cast
        rw [sub_mul, decreaseExponent_value m (min_le_left e f),
          decreaseExponent_value n (min_le_right e f)]
      have hnonneg : (0 : ℤ) ≤
          (decreaseExponent m e (min e f)).1 - (decreaseExponent n f (min e f)).1 := by
        have hpos : (0 : ℚ) < 2 ^ min e f := zpow_pos two_pos _
        have := nonneg_of_mul_nonneg_left (hvalue ▸ sub_nonneg.2 hba) hpos
        exact_mod_cast this
      rw [← hvalue] at h ⊢
      rw [hux, huy]
      exact holds_normalize hnonneg h

theorem cast_mul_units (m n : ℕ) (e f : ℤ) :
    ((m * n : ℕ) : ℚ) * 2 ^ (e + f) = m * 2 ^ e * (n * 2 ^ f) := by
  rw [zpow_add₀ two_ne_zero]
  push_cast
  ring

theorem mul_units_le {m n : ℕ} {e f : ℤ} (hm : 0 < m) (hn : 0 < n)
    (hme : e = leastExponent ∨ 2 ^ 52 ≤ m) (hnf : f = leastExponent ∨ 2 ^ 52 ≤ n) :
    e + f ≤ (unitsRatio (m * n) (e + f)).gridExponent := by
  have hmn : 0 < m * n := Nat.mul_pos hm hn
  have hlow := log2_add_le_binaryExponent (t := e + f) hmn
  have hleast : leastExponent = -1074 := rfl
  change e + f ≤ max ((unitsRatio (m * n) (e + f)).binaryExponent - 52) (-1074)
  have hbig (hle : 2 ^ 52 ≤ m * n) : 52 ≤ (m * n).log2 := (Nat.le_log2 hmn.ne').2 hle
  rcases hme with he | he
  · rcases hnf with hf | hf
    · omega
    · have := hbig (hf.trans (Nat.le_mul_of_pos_left n hm))
      omega
  · have := hbig (he.trans (Nat.le_mul_of_pos_right m hn))
    omega

/-- A product of doubles is the double nearest to the product of their numbers. -/
theorem mul (hx : Holds x a) (hy : Holds y b) (h : nearestTo (a * b) < 2 ^ (1024 : ℤ)) :
    Holds (x * y) (nearestTo (a * b)) := by
  change Holds (.ofModel (.pack (x.toModel.unpack.mul .binary64 y.toModel.unpack))) _
  obtain ⟨hux, rfl⟩ | ⟨m, e, hm, hux, rfl, hme⟩ := hx.unpack_cases
  · rw [zero_mul, nearestTo_eq isRepresentable_zero, hux]
    obtain ⟨huy, -⟩ | ⟨n, f, hn, huy, -⟩ := hy.unpack_cases <;> rw [huy] <;> exact holds_zero
  · obtain ⟨huy, rfl⟩ | ⟨n, f, hn, huy, rfl, hnf⟩ := hy.unpack_cases
    · rw [mul_zero, nearestTo_eq isRepresentable_zero, hux, huy]
      exact holds_zero
    · rw [← cast_mul_units] at h ⊢
      rw [hux, huy]
      exact holds_roundWithAccuracy (Nat.mul_pos hm hn) (mul_units_le hm hn hme hnf) h

/-- A product that is finite is the double nearest to the product of the numbers. -/
theorem mul_of_isFinite (hx : Holds x a) (hy : Holds y b) (h : (x * y).isFinite = true) :
    Holds (x * y) (nearestTo (a * b)) := by
  refine hx.mul hy (not_le.1 fun hle => ?_)
  obtain ⟨hux, rfl⟩ | ⟨m, e, hm, hux, rfl, hme⟩ := hx.unpack_cases
  · rw [zero_mul, nearestTo_eq isRepresentable_zero] at hle
    exact absurd hle (not_le.2 (zpow_pos two_pos _))
  · obtain ⟨huy, rfl⟩ | ⟨n, f, hn, huy, rfl, hnf⟩ := hy.unpack_cases
    · rw [mul_zero, nearestTo_eq isRepresentable_zero] at hle
      exact absurd hle (not_le.2 (zpow_pos two_pos _))
    · rw [← cast_mul_units] at hle
      have hinfinite := isFinite_roundWithAccuracy (Nat.mul_pos hm hn)
        (mul_units_le hm hn hme hnf) hle
      have hmul : x * y = .ofModel (.pack (x.toModel.unpack.mul .binary64 y.toModel.unpack)) := rfl
      rw [hux, huy] at hmul
      change x * y = .ofModel (.pack (roundWithAccuracy .binary64 .positive _ _ .exact)) at hmul
      rw [hmul, hinfinite] at h
      cases h

/-- A quotient of doubles is the double nearest to the quotient of their numbers. -/
theorem div (hx : Holds x a) (hy : Holds y b) (hb : 0 < b)
    (h : nearestTo (a / b) < 2 ^ (1024 : ℤ)) : Holds (x / y) (nearestTo (a / b)) := by
  obtain ⟨d, hd, hdneg, rfl⟩ := hx
  obtain ⟨c, hc, hcneg, rfl⟩ := hy
  have hm : 0 < c.mantissa := by
    refine Nat.pos_of_ne_zero fun hzero => hb.ne' ?_
    rw [c.toRat_magnitude, hzero, Nat.cast_zero, zero_mul]
  have hq : (d.quotient c hm).toRat = d.magnitude.toRat / c.magnitude.toRat := Ratio.toRat_div _ _ _
  rw [← hq, ← Ratio.nearest_eq_nearestTo] at h ⊢
  obtain ⟨q, hread, hneg, hvalue⟩ := exists_ofFloat?_div hd hc hm h
  exact ⟨q, hread, hneg.trans (by rw [hdneg, hcneg]; rfl), hvalue⟩

end Holds

/-! ### Small sums and products -/

section small

variable {x y : Float} {a b : ℚ} {k : ℕ}

theorem nearestTo_small (ha : 0 ≤ a) (hak : a ≤ k) (hk : k ≤ 2 ^ 53) :
    nearestTo a ≤ k ∧ nearestTo a < 2 ^ (1024 : ℤ) :=
  ⟨nearestTo_le ha (isRepresentable_natCast hk) hak,
    nearestTo_lt_infinity ha (hak.trans (by exact_mod_cast hk))⟩

theorem Holds.add_small (hx : Holds x a) (hy : Holds y b) (h : a + b ≤ k) (hk : k ≤ 2 ^ 53) :
    Holds (x + y) (nearestTo (a + b)) ∧ nearestTo (a + b) ≤ k :=
  have hsum := nearestTo_small (add_nonneg hx.nonneg hy.nonneg) h hk
  ⟨hx.add hy hsum.2, hsum.1⟩

theorem Holds.mul_small (hx : Holds x a) (hy : Holds y b) (h : a * b ≤ k) (hk : k ≤ 2 ^ 53) :
    Holds (x * y) (nearestTo (a * b)) ∧ nearestTo (a * b) ≤ k :=
  have hproduct := nearestTo_small (mul_nonneg hx.nonneg hy.nonneg) h hk
  ⟨hx.mul hy hproduct.2, hproduct.1⟩

end small

/-! ### Comparisons -/

section comparisons

variable {x y : Float} {a b : ℚ}

theorem double_lt_iff_unpack (x y : Float) :
    x < y ↔ x.toModel.unpack.compare y.toModel.unpack = some .lt := by
  change decide (x.toModel < y.toModel) = true ↔ _
  rw [decide_eq_true_iff]
  exact beq_iff_eq

theorem double_neg_iff {d : Dyadic} (hd : Dyadic.ofFloat? x = some d) :
    x < 0 ↔ d.negative = true ∧ d.mantissa ≠ 0 := by
  rw [double_lt_iff_unpack, unpack_zero]
  rcases Nat.eq_zero_or_pos d.mantissa with hm | hm
  · rw [Dyadic.toModel_unpack_zero hd hm]
    refine iff_of_false ?_ fun h => h.2 hm
    cases d.negative <;> decide
  · rw [Dyadic.toModel_unpack hd hm]
    cases d.negative with
    | true => exact iff_of_true rfl ⟨rfl, hm.ne'⟩
    | false => exact iff_of_false (by rintro ⟨⟩) (by rintro ⟨⟨⟩, -⟩)

theorem Holds.lt_iff (hx : Holds x a) (hy : Holds y b) : x < y ↔ a < b := by
  have hle := hy.le_iff hx
  rw [← not_le, ← hle, Dyadic.double_le_iff_unpack, double_lt_iff_unpack,
    UnpackedFloat.le]
  obtain ⟨hux, -⟩ | ⟨m, e, hm, hux, -⟩ := hx.unpack_cases
  · obtain ⟨huy, -⟩ | ⟨n, f, hn, huy, -⟩ := hy.unpack_cases <;> rw [hux, huy]
    · decide
    · exact iff_of_true rfl Bool.false_ne_true
  · obtain ⟨huy, -⟩ | ⟨n, f, hn, huy, -⟩ := hy.unpack_cases <;> rw [hux, huy]
    · exact iff_of_false (by rintro ⟨⟩) fun h => h rfl
    · have hswap : (compare f e).then (compare n m) = ((compare e f).then (compare m n)).swap := by
        rw [Ordering.swap_then, Int.compare_swap, Nat.compare_swap]
      change some ((compare e f).then (compare m n)) = some .lt ↔
        ¬((compare f e).then (compare n m)).isLE = true
      rw [hswap]
      cases (compare e f).then (compare m n) <;> decide

theorem Holds.beq_iff (hx : Holds x a) (hy : Holds y b) : (x == y) = true ↔ a = b := by
  have hle := hx.le_iff hy
  have hlt := hx.lt_iff hy
  rw [Dyadic.double_le_iff_unpack, UnpackedFloat.le] at hle
  rw [double_lt_iff_unpack] at hlt
  change (x.toModel.unpack.compare y.toModel.unpack == some .eq) = true ↔ _
  rw [@eq_iff_le_not_lt ℚ, ← hle, ← hlt]
  generalize x.toModel.unpack.compare y.toModel.unpack = order
  rcases order with _ | _ | _ | _ <;> decide

theorem Holds.beq_zero_iff (hx : Holds x a) : (x == 0) = true ↔ a = 0 :=
  hx.beq_iff holds_zero

end comparisons

/-! ### Whole numbers as doubles -/

theorem holds_half : Holds 0.5 (1 / 2) :=
  @holds_of_ofFloat? _ (2 ^ 52) (-53) _ rfl (by norm_num)

theorem holds_one : Holds 1 1 :=
  @holds_of_ofFloat? _ (2 ^ 52) (-52) _ rfl (by norm_num)

end PocketCalculator
