/-! # Ratios and rounding

A ratio of natural numbers, not necessarily in lowest terms, and the rounding of one to a natural
number.  `roundDiv_le` and `le_roundDiv` say that rounding moves a quotient by half a unit at
most. -/

namespace PocketCalculator

/-! ### Powers of the two bases -/

/-- A power of two. -/
def twoPow (k : Nat) : Nat :=
  Nat.pow 2 k

/-- A power of ten. -/
def tenPow (k : Nat) : Nat :=
  Nat.pow 10 k

theorem twoPow_pos (k : Nat) : 0 < twoPow k :=
  Nat.pow_pos (by decide)

theorem tenPow_pos (k : Nat) : 0 < tenPow k :=
  Nat.pow_pos (by decide)

/-! ### Rounded division -/

/-- Which neighbour a quotient halfway between two whole numbers goes to. -/
inductive Tie where
  | toEven
  | awayFromZero
  deriving DecidableEq, Repr

/-- Whether a quotient halfway above `floor` goes up. -/
def Tie.goesUp : Tie → (floor : Nat) → Bool
  | .toEven, floor => floor % 2 == 1
  | .awayFromZero, _ => true

/-- The whole number nearest to `num / den`. -/
def roundDiv (tie : Tie) (num den : Nat) : Nat :=
  let floor := num / den
  let rest := num % den
  if 2 * rest < den then floor
  else if den < 2 * rest then floor + 1
  else if tie.goesUp floor then floor + 1 else floor

theorem roundDiv_le (tie : Tie) (num den : Nat) :
    2 * (roundDiv tie num den * den) ≤ 2 * num + den := by
  have hd := Nat.div_add_mod num den
  rw [Nat.mul_comm] at hd
  have hs : (num / den + 1) * den = num / den * den + den := by
    rw [Nat.add_mul, Nat.one_mul]
  unfold roundDiv
  simp only
  split
  · omega
  · split
    · omega
    · split <;> omega

theorem le_roundDiv (tie : Tie) (num : Nat) {den : Nat} (h : 0 < den) :
    2 * num ≤ 2 * (roundDiv tie num den * den) + den := by
  have hd := Nat.div_add_mod num den
  rw [Nat.mul_comm] at hd
  have hm := Nat.mod_lt num h
  have hs : (num / den + 1) * den = num / den * den + den := by
    rw [Nat.add_mul, Nat.one_mul]
  unfold roundDiv
  simp only
  split
  · omega
  · split
    · omega
    · split <;> omega

/-! ### Ratios -/

/-- The quotient of two natural numbers. -/
structure Ratio where
  num : Nat
  den : Nat
  den_pos : 0 < den

namespace Ratio

/-- A natural number as a ratio. -/
def ofNat (n : Nat) : Ratio :=
  ⟨n, 1, Nat.one_pos⟩

/-- The ratio times `2 ^ k`. -/
def mulTwoPow (r : Ratio) : Int → Ratio
  | .ofNat k => ⟨r.num * twoPow k, r.den, r.den_pos⟩
  | .negSucc k => ⟨r.num, r.den * twoPow (k + 1), Nat.mul_pos r.den_pos (twoPow_pos _)⟩

/-- The ratio times `10 ^ k`. -/
def mulTenPow (r : Ratio) : Int → Ratio
  | .ofNat k => ⟨r.num * tenPow k, r.den, r.den_pos⟩
  | .negSucc k => ⟨r.num, r.den * tenPow (k + 1), Nat.mul_pos r.den_pos (tenPow_pos _)⟩

/-- Comparison by cross multiplication. -/
protected def le (r s : Ratio) : Bool :=
  r.num * s.den ≤ s.num * r.den

/-- Strict comparison by cross multiplication. -/
protected def lt (r s : Ratio) : Bool :=
  r.num * s.den < s.num * r.den

/-- The whole part. -/
def floor (r : Ratio) : Nat :=
  r.num / r.den

/-- The nearest whole number. -/
def round (tie : Tie) (r : Ratio) : Nat :=
  roundDiv tie r.num r.den

/-- The distance of a ratio from another one. -/
def distance (r s : Ratio) : Ratio :=
  let a := r.num * s.den
  let b := s.num * r.den
  ⟨(a - b) + (b - a), r.den * s.den, Nat.mul_pos r.den_pos s.den_pos⟩

/-! ### Sizes -/

/-- How many decimal digits a natural number has. -/
def decimalLength (n : Nat) : Nat :=
  (Nat.toDigits 10 n).length

theorem decimalLength_le_iff {n k : Nat} (h : 0 < k) : decimalLength n ≤ k ↔ n < tenPow k :=
  Nat.length_toDigits_le_iff (by decide) h

/-- The greatest `k` with `10 ^ k ≤ r`, for a ratio that is not zero. -/
def decimalExponent (r : Ratio) : Int :=
  let k : Int := decimalLength r.num - decimalLength r.den
  if ((ofNat 1).mulTenPow k).le r then k else k - 1

/-- The greatest `k` with `2 ^ k ≤ r`, for a ratio that is not zero. -/
def binaryExponent (r : Ratio) : Int :=
  let k : Int := r.num.log2 - r.den.log2
  if ((ofNat 1).mulTwoPow k).le r then k else k - 1

end Ratio
end PocketCalculator
