import PocketCalculator.Number.BestFraction
import Mathlib.Data.Rat.Lemmas
import Mathlib.Tactic

/-! # The closest fraction is closest

Two fractions `p / q < p' / q'` with `p' * q - p * q' = 1` have nothing between them with a
denominator below `q + q'`, so for a number between them one of the two is a best approximation
(`Neighbours.abs_sub_le`).  Every step of the expansion keeps that the last two convergents have
such a determinant and that they combine to the fraction expanded (`Expands.next`).  So where the
expansion stops, the last convergent and the last fraction within the bound from the one before it
are neighbours around that fraction (`Expands.neighbours`), and the nearer of them is a best
approximation: `closest_isBest`. -/

namespace PocketCalculator.BestFraction

/-! ### Neighbouring fractions -/

/-- Two fractions around `v`, the smaller one first, between which there is none with a denominator
of at most `bound`. -/
structure Neighbours (bound : Nat) (v : ℚ) (p : Int) (q : Nat) (p' : Int) (q' : Nat) : Prop where
  den_pos : 0 < q
  den_pos' : 0 < q'
  determinant : p' * q - p * q' = 1
  bound_lt : bound < q + q'
  low_le : p / q ≤ v
  le_high : v ≤ p' / q'

namespace Neighbours

variable {bound q q' : Nat} {v : ℚ} {p p' : Int}

/-- Nothing with a denominator of at most `bound` lies between neighbours. -/
theorem le_or_le (h : Neighbours bound v p q p' q') {r : ℚ} (hr : r.den ≤ bound) :
    r ≤ p / q ∨ p' / q' ≤ r := by
  have hq : (0 : ℚ) < q := Nat.cast_pos.2 h.den_pos
  have hq' : (0 : ℚ) < q' := Nat.cast_pos.2 h.den_pos'
  have hden : (0 : ℚ) < r.den := Nat.cast_pos.2 r.den_pos
  by_contra hbetween
  rw [not_or, not_le, not_le, ← Rat.num_div_den r, div_lt_div_iff₀ hq hden,
    div_lt_div_iff₀ hden hq'] at hbetween
  obtain ⟨hlow, hhigh⟩ := hbetween
  -- the denominator is at least the sum of the two others
  have hlow' : (1 : ℤ) ≤ r.num * q - p * r.den := by
    have : p * r.den < r.num * q := by exact_mod_cast hlow
    omega
  have hhigh' : (1 : ℤ) ≤ p' * r.den - r.num * q' := by
    have : r.num * q' < p' * r.den := by exact_mod_cast hhigh
    omega
  have hsum : (r.den : ℤ) = q' * (r.num * q - p * r.den) + q * (p' * r.den - r.num * q') := by
    linear_combination (-(r.den : ℤ)) * h.determinant
  have hleft : (q' : ℤ) * 1 ≤ q' * (r.num * q - p * r.den) :=
    mul_le_mul_of_nonneg_left hlow' (Int.natCast_nonneg _)
  have hright : (q : ℤ) * 1 ≤ q * (p' * r.den - r.num * q') :=
    mul_le_mul_of_nonneg_left hhigh' (Int.natCast_nonneg _)
  have := h.bound_lt
  omega

/-- One of two neighbours is as near as any fraction. -/
theorem abs_sub_le (h : Neighbours bound v p q p' q') {r : ℚ} (hr : r.den ≤ bound) :
    |p / q - v| ≤ |r - v| ∨ |p' / q' - v| ≤ |r - v| := by
  have hlow := h.low_le
  have hhigh := h.le_high
  rcases h.le_or_le hr with hle | hge
  · left
    rw [abs_of_nonpos (by linarith), abs_of_nonpos (by linarith)]
    linarith
  · right
    rw [abs_of_nonneg (by linarith), abs_of_nonneg (by linarith)]
    linarith

theorem coprime (h : Neighbours bound v p q p' q') : p.natAbs.Coprime q :=
  Int.isCoprime_iff_gcd_eq_one.1
    (show IsCoprime p (q : Int) from ⟨-q', p', by linear_combination h.determinant⟩)

theorem coprime' (h : Neighbours bound v p q p' q') : p'.natAbs.Coprime q' :=
  Int.isCoprime_iff_gcd_eq_one.1
    (show IsCoprime p' (q' : Int) from ⟨q, -p, by linear_combination h.determinant⟩)

end Neighbours

/-! ### Convergents -/

/-- The convergents `c` and the quotient `rest / restDen` that is left combine to `num / den`.  The
quotient is below zero only before the first step. -/
structure Expands (bound : Nat) (num : Int) (den : Nat) (c : Convergents) (rest : Int)
    (restDen : Nat) : Prop where
  num_eq : num = c.num₁ * rest + c.num₀ * restDen
  den_eq : (den : Int) = c.den₁ * rest + c.den₀ * restDen
  determinant : c.num₁ * c.den₀ - c.num₀ * c.den₁ = 1 ∨ c.num₀ * c.den₁ - c.num₁ * c.den₀ = 1
  den₀_le : c.den₀ ≤ bound
  den₁_le : c.den₁ ≤ bound
  rest_nonneg : 0 ≤ rest ∨ c.den₁ = 0

namespace Expands

variable {bound den restDen : Nat} {num rest : Int} {c : Convergents}

theorem start (hb : 1 ≤ bound) : Expands bound num den .start num den where
  num_eq := by simp [Convergents.start]
  den_eq := by simp [Convergents.start]
  determinant := .inl (by simp [Convergents.start])
  den₀_le := hb
  den₁_le := Nat.zero_le _
  rest_nonneg := .inr rfl

/-- A partial quotient below zero meets the denominator zero. -/
theorem toNat_mul (h : Expands bound num den c rest restDen) :
    (((rest / restDen).toNat * c.den₁ : Nat) : Int) = rest / restDen * c.den₁ := by
  rw [Nat.cast_mul]
  obtain hrest | hzero := h.rest_nonneg
  · rw [Int.toNat_of_nonneg (Int.ediv_nonneg hrest (Int.natCast_nonneg _))]
  · simp [hzero]

/-- One step of the expansion. -/
theorem next (h : Expands bound num den c rest restDen) (hd : restDen ≠ 0)
    (hle : c.den₀ + (rest / restDen).toNat * c.den₁ ≤ bound) :
    Expands bound num den (c.next (rest / restDen)) restDen (rest % restDen).toNat := by
  have hd' : (restDen : Int) ≠ 0 := Int.natCast_ne_zero.2 hd
  have hmod : ((rest % restDen).toNat : Int) = rest % restDen :=
    Int.toNat_of_nonneg (Int.emod_nonneg _ hd')
  have hdiv := Int.mul_ediv_add_emod rest restDen
  have hquot := h.toNat_mul
  refine ⟨?_, ?_, ?_, h.den₁_le, hle, .inl (Int.natCast_nonneg _)⟩
  · rw [hmod, Convergents.next]
    linear_combination h.num_eq - c.num₁ * hdiv
  · rw [hmod, Convergents.next]
    push_cast [hquot] at hquot ⊢
    linear_combination h.den_eq - c.den₁ * hdiv + restDen * hquot
  · rw [Convergents.next]
    push_cast at hquot ⊢
    refine h.determinant.symm.imp (fun hc => ?_) (fun hc => ?_)
    · linear_combination hc - c.num₁ * hquot
    · linear_combination hc + c.num₁ * hquot

/-- In lowest terms and with a denominator beyond the bound, the expansion never comes to its end. -/
theorem restDen_ne_zero (h : Expands bound num den c rest restDen) (hcop : num.natAbs.Coprime den)
    (hden : bound < den) : restDen ≠ 0 := by
  rintro rfl
  have hnum := h.num_eq
  have heq := h.den_eq
  rw [Nat.cast_zero, mul_zero, add_zero] at hnum heq
  have hunit : rest.natAbs ∣ 1 := by
    rw [← Nat.Coprime.gcd_eq_one hcop]
    refine Nat.dvd_gcd ?_ (Int.natCast_dvd_natCast.1 (Int.natAbs_dvd.2 ?_))
    · exact Int.natAbs_dvd_natAbs.2 (hnum ▸ dvd_mul_left _ _)
    · exact heq ▸ dvd_mul_left _ _
  have hle := h.den₁_le
  rcases Int.natAbs_eq_iff.1 (Nat.dvd_one.1 hunit) with hrest | hrest <;> rw [hrest] at heq <;> omega

/-- The expansion stops in front of the first convergent beyond the bound. -/
theorem exists_expand (h : Expands bound num den c rest restDen) (hcop : num.natAbs.Coprime den)
    (hden : bound < den) : ∃ rest' restDen',
      Expands bound num den (expand bound c rest restDen) rest' restDen' ∧
      bound < (expand bound c rest restDen).den₀ +
        (rest' / restDen').toNat * (expand bound c rest restDen).den₁ := by
  fun_induction expand bound c rest restDen with
  | case1 c rest => exact absurd rfl (h.restDen_ne_zero hcop hden)
  | case2 c rest restDen hd a hstop => exact ⟨rest, restDen, h, hstop⟩
  | case3 c rest restDen hd a hgo ih => exact ih (h.next hd (not_lt.1 hgo))

end Expands

/-! ### The last convergent and the last fraction towards the one before it -/

section stopped

variable {bound den restDen k : Nat} {num rest : Int} {c : Convergents}

theorem Expands.last_sub (h : Expands bound num den c rest restDen) :
    c.num₁ * den - num * c.den₁ = (c.num₁ * c.den₀ - c.num₀ * c.den₁) * restDen := by
  rw [h.den_eq, h.num_eq]
  ring

/-- How far the fraction after `k` steps is off, times both denominators. -/
theorem Expands.steps_sub (h : Expands bound num den c rest restDen) :
    num * (c.den₀ + k * c.den₁ : Nat) - (c.num₀ + k * c.num₁) * den =
      (c.num₁ * c.den₀ - c.num₀ * c.den₁) * (rest - k * restDen) := by
  push_cast
  rw [h.den_eq, h.num_eq]
  ring

/-- Where the expansion stops, the number of steps that keep within the bound is below the next
partial quotient. -/
theorem Expands.steps_bounds (h : Expands bound num den c rest restDen)
    (hstop : bound < c.den₀ + (rest / restDen).toNat * c.den₁)
    (hk : k = (bound - c.den₀) / c.den₁) :
    0 < c.den₁ ∧ c.den₀ + k * c.den₁ ≤ bound ∧ bound < c.den₀ + k * c.den₁ + c.den₁ ∧
      (k : Int) * restDen ≤ rest := by
  have hden₀ := h.den₀_le
  have hpos : 0 < c.den₁ := by
    by_contra hzero
    rw [Nat.eq_zero_of_not_pos hzero, Nat.mul_zero] at hstop
    omega
  have hmul : k * c.den₁ ≤ bound - c.den₀ := hk ▸ Nat.div_mul_le_self _ _
  have hnext : bound - c.den₀ < k * c.den₁ + c.den₁ := by
    rw [← Nat.succ_mul, hk, ← Nat.div_lt_iff_lt_mul hpos]
    exact Nat.lt_succ_self _
  have hlt : k < (rest / restDen).toNat := Nat.lt_of_mul_lt_mul_right (a := c.den₁) (by omega)
  have hrestDen : (0 : Int) < restDen := by
    rcases Nat.eq_zero_or_pos restDen with rfl | hrestDen
    · rw [Nat.cast_zero, Int.ediv_zero] at hlt
      cases hlt
    · exact_mod_cast hrestDen
  exact ⟨hpos, by omega, by omega, Int.mul_le_of_le_ediv hrestDen (by omega)⟩

/-- Where the expansion stops, the last convergent and the last fraction within the bound from the
one before it are neighbours around the fraction expanded, in one order or the other. -/
theorem Expands.neighbours (h : Expands bound num den c rest restDen) (hden : 0 < den)
    (hstop : bound < c.den₀ + (rest / restDen).toNat * c.den₁)
    (hk : k = (bound - c.den₀) / c.den₁) :
    Neighbours bound (num / den) (c.num₀ + k * c.num₁) (c.den₀ + k * c.den₁) c.num₁ c.den₁ ∨
      Neighbours bound (num / den) c.num₁ c.den₁ (c.num₀ + k * c.num₁) (c.den₀ + k * c.den₁) := by
  obtain ⟨hpos, -, hlt, hsteps⟩ := h.steps_bounds hstop hk
  have hden₁ := h.den₁_le
  have hpos₂ : 0 < c.den₀ + k * c.den₁ := by omega
  have hlast := h.last_sub
  have hsub := @Expands.steps_sub _ _ _ k _ _ _ h
  generalize hp : c.num₀ + k * c.num₁ = p at hsub
  generalize hq : c.den₀ + k * c.den₁ = q at *
  have hqQ : (0 : ℚ) < q := Nat.cast_pos.2 hpos₂
  have hq₁Q : (0 : ℚ) < c.den₁ := Nat.cast_pos.2 hpos
  have hdenQ : (0 : ℚ) < den := Nat.cast_pos.2 hden
  refine h.determinant.imp (fun hdet => ?_) (fun hdet => ?_)
  · rw [hdet, one_mul] at hlast hsub
    refine ⟨hpos₂, hpos, ?_, by omega, ?_, ?_⟩
    · rw [← hp, ← hq]
      push_cast
      linear_combination hdet
    · rw [div_le_div_iff₀ hqQ hdenQ]
      exact_mod_cast (by omega : p * (den : Int) ≤ num * q)
    · rw [div_le_div_iff₀ hdenQ hq₁Q]
      exact_mod_cast (by omega : num * (c.den₁ : Int) ≤ c.num₁ * den)
  · have hdet' : c.num₁ * (c.den₀ : Int) - c.num₀ * c.den₁ = -1 := by omega
    rw [hdet', neg_one_mul] at hlast hsub
    refine ⟨hpos, hpos₂, ?_, by omega, ?_, ?_⟩
    · rw [← hp, ← hq]
      push_cast
      linear_combination hdet
    · rw [div_le_div_iff₀ hq₁Q hdenQ]
      exact_mod_cast (by omega : c.num₁ * (den : Int) ≤ num * c.den₁)
    · rw [div_le_div_iff₀ hdenQ hqQ]
      exact_mod_cast (by omega : num * (q : Int) ≤ p * den)

end stopped

/-! ### The closest fraction -/

/-- A fraction in lowest terms with a denominator of at most `bound`, to which no other such
fraction is closer to `v`. -/
structure IsBest (bound : Nat) (v : ℚ) (p : Int) (q : Nat) : Prop where
  den_pos : 0 < q
  den_le : q ≤ bound
  coprime : p.natAbs.Coprime q
  abs_sub_le : ∀ r : ℚ, r.den ≤ bound → |p / q - v| ≤ |r - v|

theorem IsBest.den_div {bound q : Nat} {v : ℚ} {p : Int} (h : IsBest bound v p q) :
    ((p : ℚ) / q).den = q := by
  have := Rat.den_div_eq_of_coprime (Int.natCast_pos.2 h.den_pos) h.coprime
  exact_mod_cast this

theorem Neighbours.isBest {bound q q' : Nat} {v : ℚ} {p p' : Int}
    (h : Neighbours bound v p q p' q' ∨ Neighbours bound v p' q' p q) (hle : q ≤ bound)
    (hnear : |p / q - v| ≤ |(p' : ℚ) / q' - v|) : IsBest bound v p q := by
  obtain h | h := h
  · exact ⟨h.den_pos, hle, h.coprime, fun r hr => (h.abs_sub_le hr).elim id hnear.trans⟩
  · exact ⟨h.den_pos', hle, h.coprime', fun r hr => (h.abs_sub_le hr).elim hnear.trans id⟩

/-- Two distances, compared by cross multiplication. -/
theorem natAbs_mul_le_iff {p p' num : Int} {q q' den : Nat} (hq : 0 < q) (hq' : 0 < q')
    (hden : 0 < den) :
    (p * den - num * q).natAbs * q' ≤ (p' * den - num * q').natAbs * q ↔
      |(p : ℚ) / q - num / den| ≤ |(p' : ℚ) / q' - num / den| := by
  have hqQ : (0 : ℚ) < q := Nat.cast_pos.2 hq
  have hq'Q : (0 : ℚ) < q' := Nat.cast_pos.2 hq'
  have hdenQ : (0 : ℚ) < den := Nat.cast_pos.2 hden
  rw [div_sub_div _ _ hqQ.ne' hdenQ.ne', div_sub_div _ _ hq'Q.ne' hdenQ.ne', abs_div, abs_div,
    abs_of_pos (mul_pos hqQ hdenQ), abs_of_pos (mul_pos hq'Q hdenQ),
    div_le_div_iff₀ (mul_pos hqQ hdenQ) (mul_pos hq'Q hdenQ), ← mul_assoc, ← mul_assoc,
    mul_le_mul_iff_left₀ hdenQ, mul_comm (q : ℚ) num, mul_comm (q' : ℚ) num, ← Nat.cast_le (α := ℚ)]
  push_cast [Nat.cast_natAbs]
  rfl

theorem isBest_self {bound den : Nat} {num : Int} (hcop : num.natAbs.Coprime den) (hden : 0 < den)
    (hle : den ≤ bound) : IsBest bound (num / den) num den :=
  ⟨hden, hle, hcop, fun r _ => by simp⟩

theorem lowest_terms (num : Int) {den g : Nat} (hden : 0 < den) (hg : g = num.natAbs.gcd den) :
    (num / g).natAbs.Coprime (den / g) ∧ 0 < den / g ∧
      ((num / g : Int) : ℚ) / (den / g : Nat) = num / den := by
  have hpos : 0 < g := hg ▸ Nat.gcd_pos_of_pos_right _ hden
  have hnum : (g : Int) ∣ num := Int.natCast_dvd.2 (hg ▸ Nat.gcd_dvd_left _ _)
  have hdvd : g ∣ den := hg ▸ Nat.gcd_dvd_right _ _
  have hgQ : (g : ℚ) ≠ 0 := Nat.cast_ne_zero.2 hpos.ne'
  refine ⟨?_, Nat.div_pos (Nat.le_of_dvd hden hdvd) hpos, ?_⟩
  · rw [Int.natAbs_ediv_of_dvd hnum, Int.natAbs_natCast, hg]
    exact Nat.coprime_div_gcd_div_gcd (hg ▸ hpos)
  · rw [Int.cast_div hnum (by exact_mod_cast hgQ), Nat.cast_div hdvd hgQ, Int.cast_natCast]
    exact div_div_div_cancel_right₀ hgQ _ _

/-- The closest fraction is in lowest terms, keeps within the bound, and no fraction that does so is
closer. -/
theorem closest_isBest {bound den : Nat} (num : Int) (hbound : 1 ≤ bound) (hden : 0 < den) :
    IsBest bound (num / den) (closest bound num den).1 (closest bound num den).2 := by
  obtain ⟨hcop, hpos, hvalue⟩ := lowest_terms num hden rfl
  rw [← hvalue, closest]
  dsimp only
  generalize num / (num.natAbs.gcd den : Int) = n at hcop ⊢
  generalize den / num.natAbs.gcd den = d at hcop hpos ⊢
  split
  · rename_i hle
    exact isBest_self hcop hpos hle
  · rename_i hgt
    obtain ⟨rest, restDen, hexp, hstop⟩ :=
      (Expands.start hbound).exists_expand hcop (not_le.1 hgt)
    generalize expand bound .start n d = c at hexp hstop ⊢
    generalize hk : (bound - c.den₀) / c.den₁ = k
    obtain ⟨hpos₁, hle₂, hlt, -⟩ := hexp.steps_bounds hstop hk.symm
    have hneighbours := hexp.neighbours hpos hstop hk.symm
    have hden₁ := hexp.den₁_le
    have hnear := @natAbs_mul_le_iff c.num₁ (c.num₀ + k * c.num₁) n c.den₁ (c.den₀ + k * c.den₁) d
      hpos₁ (by omega) hpos
    split
    · rename_i herror
      exact Neighbours.isBest hneighbours.symm hden₁ (hnear.1 herror)
    · rename_i herror
      exact Neighbours.isBest hneighbours hle₂ (le_of_not_ge (mt hnear.2 herror))

end PocketCalculator.BestFraction
