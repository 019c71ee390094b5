import PocketCalculator.Proofs.Number.FloorDivision

/-! # Degrees taken off seconds

A number of seconds is divided by 3600, rounded down, and as many degrees are taken off.  Each of
the three operations rounds.  Below `2 ^ 62` this does no harm: the degrees are the whole ones, and
less than a degree is left (`floorQuotient_degree`, `lt_add_degree`).  From there on the doubles are
a thousand seconds apart and more, and more than a degree can be left, but never less than nothing
and never as much as `2 ^ 14` seconds.  From `2 ^ 65` on nothing is left any more, because the
seconds are a product with 3600 themselves.  `degrees_spec` puts this together. -/

namespace PocketCalculator

variable {t v : ℚ}

theorem degree_bounds (ht : 0 ≤ t) :
    (⌊t / 3600⌋₊ : ℚ) * 3600 ≤ t ∧ t < ⌊t / 3600⌋₊ * 3600 + 3600 :=
  floor_div_bounds ht (by norm_num)

theorem nearestTo_degrees_le (ht : IsRepresentable t) {k : ℕ} (h : (k : ℚ) * 3600 ≤ t) :
    nearestTo (k * 3600) ≤ t :=
  nearestTo_le (by positivity) ht h

/-! ### Below `2 ^ 62` -/

section small

variable (ht : IsRepresentable t) (hlt : t < 2 ^ 62)

include ht hlt

/-- The degrees are the whole ones. -/
theorem floorQuotient_degree : floorQuotient t 3600 = ⌊t / 3600⌋₊ := by
  obtain ⟨hlow, -⟩ := degree_bounds ht.nonneg
  rw [floorQuotient]
  generalize ⌊t / 3600⌋₊ = k at hlow
  have hk0 : (0 : ℚ) ≤ k := Nat.cast_nonneg k
  have hk : 4 * k + 1 ≤ 2 ^ 53 := by
    have : (k : ℚ) * 3600 < 2 ^ 62 := hlow.trans_lt hlt
    have : k * 3600 < 2 ^ 62 := by exact_mod_cast this
    omega
  obtain ⟨hnear, hnear'⟩ := abs_le.1 (abs_nearestTo_sub_le (g := 9) (a := k * 3600) (by positivity)
    (by decide) (by norm_num; linarith))
  norm_num at hnear hnear'
  -- a quarter is more than all roundings together, and less than a half
  have hhigh : nearestTo (nearestTo (k * 3600) / 3600) ≤ k + 1 / 4 := by
    refine nearestTo_le (div_nonneg (nearestTo_nonneg _) (by norm_num))
      ⟨4 * k + 1, -2, hk, by decide, ?_⟩ ?_
    · push_cast
      norm_num
      ring
    · rw [div_le_iff₀ (by norm_num)]
      linarith
  rcases Nat.eq_zero_or_pos k with rfl | hpos
  · rw [Nat.ceil_eq_zero]
    linarith
  · have hk1 : (1 : ℚ) ≤ k := by exact_mod_cast hpos
    have hlow : k - 1 / 4 ≤ nearestTo (nearestTo (k * 3600) / 3600) := by
      refine le_nearestTo ⟨4 * k - 1, -2, by omega, by decide, ?_⟩ ?_
      · rw [Nat.cast_sub (by omega)]
        push_cast
        norm_num
        ring
      · rw [le_div_iff₀ (by norm_num)]
        linarith
    rw [Nat.ceil_eq_iff hpos.ne', Nat.cast_pred hpos]
    constructor <;> linarith

/-- Less than a degree is left. -/
theorem lt_add_degree : t < nearestTo (⌊t / 3600⌋₊ * 3600) + 3600 := by
  obtain ⟨hlow, hhigh⟩ := degree_bounds ht.nonneg
  generalize ⌊t / 3600⌋₊ = k at hlow hhigh
  rcases lt_or_ge t (2 ^ 57) with h57 | h57
  · -- a degree has four factors of two, so the seconds of whole degrees need no rounding
    have hk : 225 * k ≤ 2 ^ 53 := by
      have : (k : ℚ) * 3600 < 2 ^ 57 := hlow.trans_lt h57
      have : k * 3600 < 2 ^ 57 := by exact_mod_cast this
      omega
    have hexact : IsRepresentable ((k : ℚ) * 3600) := by
      refine ⟨225 * k, 4, hk, by decide, ?_⟩
      push_cast
      ring
    rwa [nearestTo_eq hexact]
  · -- the seconds are a multiple of 16 like the degree, so that 16 less than a degree is left
    obtain ⟨n, hn⟩ | ⟨-, hle⟩ := @IsRepresentable.multiple_or_le t ht 4
    · norm_num at hn
      have hrest : n < 225 * k + 225 := by
        rw [hn] at hhigh
        have : (n : ℚ) < 225 * k + 225 := by linarith
        exact_mod_cast this
      have hrest' : (n : ℚ) + 1 ≤ 225 * k + 225 := by exact_mod_cast hrest
      have hsub := ht.sub_mul (c := 7) (j := 9) (by decide) (by norm_num; linarith)
        (by norm_num; linarith)
      norm_num at hsub
      have := le_nearestTo hsub (a := k * 3600) (by rw [hn]; linarith)
      linarith
    · norm_num at hle
      linarith

end small

/-! ### From `2 ^ 62` to `2 ^ 64` -/

section middle

variable (ht : IsRepresentable t) (hlow : 2 ^ 62 ≤ t) (hlt : t < 2 ^ 64)

include hlt in
/-- The seconds of whole degrees are half a unit off at most when they are rounded. -/
theorem nearestTo_degrees_near {k : ℕ} (hk : (k : ℚ) * 3600 ≤ t) :
    k ≤ 2 ^ 53 ∧ k * 3600 - 1024 ≤ nearestTo (k * 3600) ∧
      nearestTo (k * 3600) ≤ k * 3600 + 1024 := by
  have hk64 : (k : ℚ) * 3600 < 2 ^ 64 := hk.trans_lt hlt
  have hk53 : k * 3600 < 2 ^ 64 := by exact_mod_cast hk64
  obtain ⟨hnear, hnear'⟩ := abs_le.1 (abs_nearestTo_sub_le (g := 11) (a := k * 3600) (by positivity)
    (by decide) (by norm_num; linarith))
  norm_num at hnear hnear'
  exact ⟨by omega, by linarith, by linarith⟩

include ht hlt

theorem floorQuotient_degree_le : floorQuotient t 3600 ≤ ⌊t / 3600⌋₊ := by
  obtain ⟨hk, hk'⟩ := degree_bounds ht.nonneg
  have hrounded := nearestTo_degrees_le ht hk
  rw [floorQuotient]
  generalize ⌊t / 3600⌋₊ = k at hk hk' hrounded
  obtain ⟨-, -, hnear⟩ := nearestTo_degrees_near hlt hk
  have hnonneg : 0 ≤ nearestTo (k * 3600) / 3600 := div_nonneg (nearestTo_nonneg _) (by norm_num)
  rw [Nat.ceil_le]
  rcases lt_or_ge k (2 ^ 52) with h52 | h52
  · have hhalf : nearestTo (nearestTo (k * 3600) / 3600) ≤ k + 1 / 2 := by
      refine nearestTo_le hnonneg ⟨2 * k + 1, -1, by omega, by decide, ?_⟩ ?_
      · push_cast
        norm_num
        ring
      · rw [div_le_iff₀ (by norm_num)]
        linarith
    linarith
  · -- no double lies between whole numbers here
    have h52' : (2 : ℚ) ^ 52 ≤ k := by exact_mod_cast h52
    obtain ⟨-, hnear₂⟩ := abs_le.1 (abs_nearestTo_sub_le (g := 0) hnonneg (by decide)
      (by rw [div_lt_iff₀ (by norm_num)]; norm_num; linarith))
    have hquotient : nearestTo (k * 3600) / 3600 < k + 1 / 2 := by
      rw [div_lt_iff₀ (by norm_num)]
      linarith
    obtain ⟨n, hn⟩ | ⟨-, hle⟩ := @IsRepresentable.multiple_or_le _
      (isRepresentable_nearestTo (nearestTo (k * 3600) / 3600)) 0
    · rw [zpow_zero, mul_one] at hn hnear₂
      rw [hn] at hnear₂ ⊢
      have hnk : (n : ℚ) < k + 1 := by linarith
      have hnk : n < k + 1 := by exact_mod_cast hnk
      have hnk : (n : ℚ) ≤ k := by exact_mod_cast Nat.lt_succ_iff.1 hnk
      linarith
    · norm_num at hle
      linarith

include hlow

theorem degree_sub_le_floorQuotient : (⌊t / 3600⌋₊ : ℚ) - 3 / 2 ≤ floorQuotient t 3600 := by
  obtain ⟨hk, hk'⟩ := degree_bounds ht.nonneg
  rw [floorQuotient]
  generalize ⌊t / 3600⌋₊ = k at hk hk'
  obtain ⟨hk53, hnear, -⟩ := nearestTo_degrees_near hlt hk
  have hk1 : 1 ≤ k := by
    have : (1 : ℚ) ≤ k := by linarith
    exact_mod_cast this
  have hpred : ((k - 1 : ℕ) : ℚ) ≤ nearestTo (nearestTo (k * 3600) / 3600) := by
    refine le_nearestTo (isRepresentable_natCast (by omega)) ?_
    rw [Nat.cast_sub hk1, le_div_iff₀ (by norm_num)]
    push_cast
    linarith
  rw [Nat.cast_sub hk1] at hpred
  have := Nat.le_ceil (nearestTo (nearestTo (k * 3600) / 3600) - 1 / 2)
  push_cast at hpred
  linarith

theorem degrees_middle : nearestTo (floorQuotient t 3600 * 3600) ≤ t ∧
    t < nearestTo (floorQuotient t 3600 * 3600) + 2 ^ 14 := by
  obtain ⟨hk, hk'⟩ := degree_bounds ht.nonneg
  have hge := degree_sub_le_floorQuotient ht hlow hlt
  have hle : (floorQuotient t 3600 : ℚ) ≤ ⌊t / 3600⌋₊ := by
    exact_mod_cast floorQuotient_degree_le ht hlt
  have hsub := ht.sub_mul (c := 5) (j := 11) (by decide) (by norm_num; linarith)
    (by norm_num; linarith)
  have hleft := le_nearestTo hsub (a := floorQuotient t 3600 * 3600) (by norm_num; linarith)
  norm_num at hleft
  exact ⟨nearestTo_degrees_le ht (by linarith), by linarith⟩

end middle

/-! ### From `2 ^ 64` on -/

section large

variable {n : ℕ} {g : ℤ} {a : ℚ} (hg : 12 ≤ g) (hlow : 2 ^ 52 ≤ n) (hhigh : n < 2 ^ 53)
  (hv : IsRepresentable v) (htv : n * 2 ^ g = nearestTo (v * 3600))

theorem two_zpow_twelve (g : ℤ) :
    (2 : ℚ) ^ g = 4096 * 2 ^ (g - 12) ∧ (2 : ℚ) ^ (g - 11) = 2 * 2 ^ (g - 12) := by
  constructor
  · rw [zpow_sub₀ two_ne_zero]
    norm_num
    ring
  · rw [show g - 11 = g - 12 + 1 by ring, zpow_add_one₀ two_ne_zero, mul_comm]

include hg hhigh hv htv in
theorem abs_source_sub_le : |v * 3600 - n * 2 ^ g| ≤ 2048 * 2 ^ (g - 12) := by
  have hpos : (0 : ℚ) < 2 ^ g := zpow_pos two_pos _
  have hleast : leastExponent = -1074 := rfl
  have hv0 : 0 ≤ v * 3600 := mul_nonneg hv.nonneg (by norm_num)
  have hbelow : v * 3600 < 2 ^ 53 * 2 ^ g := by
    by_contra hle
    have htop : IsRepresentable ((2 ^ 53 : ℕ) * 2 ^ g) := ⟨2 ^ 53, g, le_rfl, by omega, rfl⟩
    have hge := le_nearestTo htop (a := v * 3600) (by push_cast; exact not_lt.1 hle)
    rw [← htv] at hge
    have : 2 ^ 53 ≤ n := by exact_mod_cast le_of_mul_le_mul_right hge hpos
    omega
  have hnear := abs_nearestTo_sub_le hv0 (g := g) (by omega) hbelow
  rw [← htv, abs_sub_comm, (two_zpow_twelve g).1] at hnear
  rw [(two_zpow_twelve g).1]
  linarith

theorem exists_double_units {w : ℚ} (hw : IsRepresentable w)
    (h : (2 ^ 53 - 1) * 2 ^ (g - 12) < w) : ∃ m : ℕ, w = m * (2 * 2 ^ (g - 12)) := by
  have hpos : (0 : ℚ) < 2 ^ (g - 12) := zpow_pos two_pos _
  obtain ⟨j, rfl⟩ | ⟨-, hle⟩ := @IsRepresentable.multiple_or_le w hw (g - 12)
  · have hj : (2 : ℚ) ^ 53 < j + 1 := by
      have := lt_of_mul_lt_mul_right h hpos.le
      linarith
    have hj : 2 ^ 53 ≤ j := Nat.lt_succ_iff.1 (by exact_mod_cast hj)
    obtain ⟨m, hm⟩ | ⟨-, hle⟩ := @IsRepresentable.multiple_or_le _ hw (g - 11)
    · exact ⟨m, by rw [hm, (two_zpow_twelve g).2]⟩
    · have hj' : (2 : ℚ) ^ 53 ≤ j := by exact_mod_cast hj
      rw [(two_zpow_twelve g).2] at hle
      have hge := mul_le_mul_of_nonneg_right hj' hpos.le
      refine ⟨2 ^ 52, ?_⟩
      push_cast
      linarith
  · linarith

include hg hhigh hv htv in
/-- A large quotient and the factor that the seconds came from are multiples of a double unit. -/
theorem exists_coarse {q : ℚ} (hq : 2 ^ 53 * 2 ^ (g - 12) ≤ q) (hqt : q * 3600 ≤ n * 2 ^ g) :
    ∃ m j : ℕ, nearestTo q = m * (2 * 2 ^ (g - 12)) ∧ v = j * (2 * 2 ^ (g - 12)) ∧
      |nearestTo q - q| ≤ 2 ^ (g - 12) := by
  have hpos : (0 : ℚ) < 2 ^ (g - 12) := zpow_pos two_pos _
  have hleast : leastExponent = -1074 := rfl
  have hn : (n : ℚ) < 2 ^ 53 := by exact_mod_cast hhigh
  obtain ⟨hsource, -⟩ := abs_le.1 (abs_source_sub_le hg hhigh hv htv)
  have htop : IsRepresentable ((2 ^ 53 : ℕ) * (2 : ℚ) ^ (g - 12)) :=
    ⟨2 ^ 53, g - 12, le_rfl, by omega, rfl⟩
  have hw := le_nearestTo htop (a := q) (by push_cast; exact hq)
  push_cast at hw
  have hqtop : q < 2 ^ 53 * 2 ^ (g - 11) := by
    have := mul_lt_mul_of_pos_right hn hpos
    rw [(two_zpow_twelve g).2]
    rw [(two_zpow_twelve g).1] at hqt
    linarith
  have hnear := abs_nearestTo_sub_le (by linarith) (by omega) hqtop
  rw [(two_zpow_twelve g).2] at hnear
  obtain ⟨m, hm⟩ := exists_double_units (isRepresentable_nearestTo q) (by linarith)
  obtain ⟨j, hj⟩ := exists_double_units hv (by linarith)
  exact ⟨m, j, hm, hj, by linarith⟩

include hg hlow hhigh hv htv

theorem nearestTo_quotient_mul_le (ha : 0 ≤ a) (hat : a ≤ n * 2 ^ g) :
    nearestTo (nearestTo (a / 3600) * 3600) ≤ n * 2 ^ g := by
  have hpos : (0 : ℚ) < 2 ^ (g - 12) := zpow_pos two_pos _
  have hleast : leastExponent = -1074 := rfl
  obtain ⟨hsource, hsource'⟩ := abs_le.1 (abs_source_sub_le hg hhigh hv htv)
  have ha' : 0 ≤ a / 3600 := div_nonneg ha (by norm_num)
  have hmul : a = a / 3600 * 3600 := by ring
  generalize a / 3600 = q at ha' hmul
  rcases lt_or_ge q (2 ^ 53 * 2 ^ (g - 12)) with hq | hq
  · obtain ⟨-, hnear⟩ := abs_le.1 (abs_nearestTo_sub_le ha' (by omega) hq)
    refine nearestTo_le_of_lt (by omega) hlow hhigh
      (mul_nonneg (nearestTo_nonneg _) (by norm_num)) ?_
    rw [(two_zpow_twelve g).1] at hat ⊢
    linarith
  · obtain ⟨m, j, hm, hj, hnear⟩ := exists_coarse hg hhigh hv htv hq (by linarith)
    obtain ⟨-, hnear⟩ := abs_le.1 hnear
    have hmj : m < j + 1 := by
      have : (m : ℚ) * (2 * 2 ^ (g - 12)) < (j + 1) * (2 * 2 ^ (g - 12)) := by linarith
      exact_mod_cast lt_of_mul_lt_mul_right this (by linarith)
    rcases Nat.lt_succ_iff_lt_or_eq.1 hmj with hlt | rfl
    · have hmj' : (m : ℚ) + 1 ≤ j := by exact_mod_cast hlt
      have := mul_le_mul_of_nonneg_right hmj' (by linarith : (0 : ℚ) ≤ 2 * 2 ^ (g - 12))
      refine nearestTo_le (mul_nonneg (nearestTo_nonneg _) (by norm_num))
        ⟨n, g, hhigh.le, by omega, rfl⟩ ?_
      linarith
    · rw [hm, ← hj, ← htv]

theorem le_nearestTo_quotient_mul :
    n * 2 ^ g ≤ nearestTo (nearestTo (n * 2 ^ g / 3600) * 3600) := by
  have hpos : (0 : ℚ) < 2 ^ (g - 12) := zpow_pos two_pos _
  have hleast : leastExponent = -1074 := rfl
  have hself : IsRepresentable ((n : ℚ) * 2 ^ g) := ⟨n, g, hhigh.le, by omega, rfl⟩
  obtain ⟨hsource, hsource'⟩ := abs_le.1 (abs_source_sub_le hg hhigh hv htv)
  have ha' : 0 ≤ (n : ℚ) * 2 ^ g / 3600 := div_nonneg hself.nonneg (by norm_num)
  have hmul : (n : ℚ) * 2 ^ g = n * 2 ^ g / 3600 * 3600 := by ring
  generalize hdiv : (n : ℚ) * 2 ^ g / 3600 = q at ha' hmul
  rcases lt_or_ge q (2 ^ 53 * 2 ^ (g - 12)) with hq | hq
  · obtain ⟨hnear, -⟩ := abs_le.1 (abs_nearestTo_sub_le ha' (by omega) hq)
    rcases Nat.lt_or_eq_of_le hlow with hlt | rfl
    · refine le_nearestTo_of_lt (by omega) hlt hhigh.le ?_
      rw [(two_zpow_twelve g).1] at hmul ⊢
      linarith
    · -- a power of two is hardly more than 3600 times a double, and the next unit is finer
      have hbelow : IsRepresentable ((5124095576030431 : ℕ) * (2 : ℚ) ^ (g - 12)) :=
        ⟨5124095576030431, g - 12, by norm_num, by omega, rfl⟩
      have hle := le_nearestTo hbelow (a := q) (by
        rw [(two_zpow_twelve g).1] at hmul
        push_cast at hmul ⊢
        linarith)
      have hfiner : ((2 ^ 52 : ℕ) : ℚ) * 2 ^ g = (2 ^ 53 : ℕ) * 2 ^ (g - 1) := by
        rw [zpow_sub_one₀ two_ne_zero]
        push_cast
        ring
      have hhalf : (2 : ℚ) ^ (g - 1) = 2048 * 2 ^ (g - 12) := by
        rw [zpow_sub_one₀ two_ne_zero, (two_zpow_twelve g).1]
        ring
      rw [hfiner]
      refine le_nearestTo_of_lt (by omega) (by norm_num) le_rfl ?_
      rw [hhalf]
      push_cast at hle ⊢
      linarith
  · obtain ⟨m, j, hm, hj, hnear⟩ := exists_coarse hg hhigh hv htv hq hmul.ge
    obtain ⟨hnear, -⟩ := abs_le.1 hnear
    have hjm : j < m + 1 := by
      have : (j : ℚ) * (2 * 2 ^ (g - 12)) < (m + 1) * (2 * 2 ^ (g - 12)) := by linarith
      exact_mod_cast lt_of_mul_lt_mul_right this (by linarith)
    rcases Nat.lt_succ_iff_lt_or_eq.1 hjm with hlt | rfl
    · have hjm' : (j : ℚ) + 1 ≤ m := by exact_mod_cast hlt
      have := mul_le_mul_of_nonneg_right hjm' (by linarith : (0 : ℚ) ≤ 2 * 2 ^ (g - 12))
      refine le_nearestTo hself ?_
      linarith
    · rw [hm, ← hj, ← htv]

end large

/-- From `2 ^ 64` on the quotient is whole before it is made so. -/
theorem cast_floorQuotient_degree (ht : 2 ^ 64 ≤ t) :
    (floorQuotient t 3600 : ℚ) = nearestTo (nearestTo (⌊t / 3600⌋₊ * 3600) / 3600) := by
  obtain ⟨-, hk⟩ := degree_bounds (t := t) (by linarith)
  rw [floorQuotient]
  generalize ⌊t / 3600⌋₊ = k at hk
  have hlow : IsRepresentable ((225 : ℕ) * (2 : ℚ) ^ (56 : ℤ)) :=
    ⟨225, 56, by norm_num, by decide, rfl⟩
  have hseconds := le_nearestTo hlow (a := k * 3600) (by norm_num; linarith)
  have hquotient := le_nearestTo (isRepresentable_natCast (n := 2 ^ 52) (by norm_num))
    (a := nearestTo (k * 3600) / 3600) (by
      rw [le_div_iff₀ (by norm_num)]
      norm_num at hseconds ⊢
      linarith)
  have hwhole : ∃ m : ℕ, nearestTo (nearestTo (k * 3600) / 3600) = m := by
    obtain ⟨m, hm⟩ | ⟨-, hle⟩ := @IsRepresentable.multiple_or_le _
      (isRepresentable_nearestTo (nearestTo (k * 3600) / 3600)) 0
    · exact ⟨m, by rw [hm, zpow_zero, mul_one]⟩
    · refine ⟨2 ^ 52, le_antisymm ?_ hquotient⟩
      push_cast
      linarith
  obtain ⟨m, hm⟩ := hwhole
  rw [hm] at hquotient ⊢
  have hpos : m ≠ 0 := by
    rintro rfl
    norm_num at hquotient
  rw [Nat.cast_inj, Nat.ceil_eq_iff hpos, Nat.cast_pred (Nat.pos_of_ne_zero hpos)]
  constructor <;> linarith

/-- From `2 ^ 65` on less than a degree does not change the seconds. -/
theorem nearestTo_degrees_eq {n : ℕ} {g : ℤ} (hlow : 2 ^ 52 ≤ n) (hhigh : n < 2 ^ 53)
    (hg : 13 ≤ g) : nearestTo (⌊(n : ℚ) * 2 ^ g / 3600⌋₊ * 3600) = n * 2 ^ g := by
  have hleast : leastExponent = -1074 := rfl
  have hself : IsRepresentable ((n : ℚ) * 2 ^ g) := ⟨n, g, hhigh.le, by omega, rfl⟩
  obtain ⟨hk, hk'⟩ := degree_bounds hself.nonneg
  refine le_antisymm (nearestTo_degrees_le hself hk) ?_
  rcases Nat.lt_or_eq_of_le hlow with hlt | rfl
  · have h13 : (2 : ℚ) ^ (13 : ℤ) ≤ 2 ^ g := zpow_le_zpow_right₀ one_le_two hg
    norm_num at h13
    exact le_nearestTo_of_lt (by omega) hlt hhigh.le (by linarith)
  · have hfiner : ((2 ^ 52 : ℕ) : ℚ) * 2 ^ g = (2 ^ 53 : ℕ) * 2 ^ (g - 1) := by
      rw [zpow_sub_one₀ two_ne_zero]
      push_cast
      ring
    rcases hg.lt_or_eq with hlt | rfl
    · have h13 : (2 : ℚ) ^ (13 : ℤ) ≤ 2 ^ (g - 1) := zpow_le_zpow_right₀ one_le_two (by omega)
      norm_num at h13
      rw [hfiner] at hk' ⊢
      exact le_nearestTo_of_lt (by omega) (by norm_num) le_rfl (by linarith)
    · -- the one power of two for which the unit below is too fine
      have hfloor : ⌊((2 ^ 52 : ℕ) : ℚ) * 2 ^ (13 : ℤ) / 3600⌋₊ = 10248191152060862 := by
        rw [show ((2 ^ 52 : ℕ) : ℚ) * 2 ^ (13 : ℤ) / 3600 = (2 ^ 65 : ℕ) / (3600 : ℕ) by norm_num,
          Nat.floor_div_eq_div]
        norm_num
      rw [hfloor, hfiner]
      refine le_nearestTo_of_lt (by decide) (by norm_num) le_rfl ?_
      norm_num

theorem Holds.exists_units {x : Float} (hx : Holds x t) {j : ℕ} (ht : 2 ^ (53 + j) ≤ t) :
    ∃ (n : ℕ) (g : ℤ), t = n * 2 ^ g ∧ 2 ^ 52 ≤ n ∧ n < 2 ^ 53 ∧ j < g := by
  obtain ⟨d, hd, -, rfl⟩ := hx
  have hc := Dyadic.canonical_of_ofFloat? hd
  have hleast : leastExponent = -1074 := rfl
  have hlt : (2 : ℚ) ^ (j : ℤ) < 2 ^ d.exponent := by
    have hm : (d.mantissa : ℚ) < 2 ^ 53 := by exact_mod_cast hc.mantissa_lt
    have := mul_lt_mul_of_pos_right hm (zpow_pos two_pos d.exponent)
    rw [← d.toRat_magnitude] at this
    rw [pow_add] at ht
    rw [zpow_natCast]
    linarith
  have hexponent := (zpow_lt_zpow_iff_right₀ (one_lt_two : (1 : ℚ) < 2)).1 hlt
  exact ⟨d.mantissa, d.exponent, d.toRat_magnitude, hc.hidden.resolve_left (by omega),
    hc.mantissa_lt, hexponent⟩

section source

variable {x : Float} (hx : Holds x t) (hv : IsRepresentable v) (htv : t = nearestTo (v * 3600))

include hx hv htv

theorem degrees_large (hlow : 2 ^ 64 ≤ t) (hlt : t < 2 ^ 65) :
    nearestTo (floorQuotient t 3600 * 3600) ≤ t ∧
      t < nearestTo (floorQuotient t 3600 * 3600) + 2 ^ 14 := by
  have ht := hx.isRepresentable
  obtain ⟨hk, hk'⟩ := degree_bounds ht.nonneg
  have hrounded := nearestTo_degrees_le ht hk
  obtain ⟨n, g, rfl, hn, hn', hg⟩ := hx.exists_units (j := 11) hlow
  rw [cast_floorQuotient_degree hlow]
  refine ⟨nearestTo_quotient_mul_le (by omega) hn hn' hv htv (nearestTo_nonneg _) hrounded, ?_⟩
  generalize (⌊(n : ℚ) * 2 ^ g / 3600⌋₊ : ℚ) * 3600 = k at hk hk' hrounded
  obtain ⟨hnear, -⟩ := abs_le.1 (abs_nearestTo_sub_le (g := 12) (a := k) (by linarith) (by decide)
    (by norm_num; linarith))
  have hquotient : 0 ≤ nearestTo k / 3600 := div_nonneg (nearestTo_nonneg _) (by norm_num)
  obtain ⟨hnear₂, -⟩ := abs_le.1 (abs_nearestTo_sub_le (g := 1) hquotient (by decide)
    (by rw [div_lt_iff₀ (by norm_num)]; norm_num; linarith))
  have hsub := ht.sub_mul (c := 3) (j := 12) (by decide) (by norm_num; linarith)
    (by norm_num; linarith)
  norm_num at hnear hnear₂ hsub
  have := le_nearestTo hsub (a := nearestTo (nearestTo k / 3600) * 3600) (by linarith)
  linarith

theorem degrees_huge (hlow : 2 ^ 65 ≤ t) : nearestTo (floorQuotient t 3600 * 3600) = t := by
  rw [cast_floorQuotient_degree (by linarith)]
  obtain ⟨n, g, rfl, hn, hn', hg⟩ := hx.exists_units (j := 12) hlow
  rw [nearestTo_degrees_eq hn hn' (by omega)]
  exact le_antisymm
    (nearestTo_quotient_mul_le (by omega) hn hn' hv htv hx.nonneg le_rfl)
    (le_nearestTo_quotient_mul (by omega) hn hn' hv htv)

end source

/-- Degrees are never taken off beyond zero, and what is left is below `2 ^ 14` seconds.  Where the
doubles are close, or so far apart that nothing is left, it is less than a degree. -/
theorem degrees_spec {x : Float} (hx : Holds x t) (hv : IsRepresentable v)
    (h : 2 ^ 62 ≤ t → t = nearestTo (v * 3600)) :
    nearestTo (floorQuotient t 3600 * 3600) ≤ t ∧
      t < nearestTo (floorQuotient t 3600 * 3600) + 2 ^ 14 ∧
      (t < 2 ^ 62 ∨ 2 ^ 65 ≤ t → t < nearestTo (floorQuotient t 3600 * 3600) + 3600) := by
  have ht := hx.isRepresentable
  rcases lt_or_ge t (2 ^ 62) with h62 | h62
  · have hleft := lt_add_degree ht h62
    rw [floorQuotient_degree ht h62]
    exact ⟨nearestTo_degrees_le ht (degree_bounds ht.nonneg).1, by linarith, fun _ => hleft⟩
  · rcases lt_or_ge t (2 ^ 65) with h65 | h65
    · have hspec : nearestTo (floorQuotient t 3600 * 3600) ≤ t ∧
          t < nearestTo (floorQuotient t 3600 * 3600) + 2 ^ 14 := by
        rcases lt_or_ge t (2 ^ 64) with h64 | h64
        · exact degrees_middle ht h62 h64
        · exact degrees_large hx hv (h h62) h64 h65
      exact ⟨hspec.1, hspec.2, fun hfar => by rcases hfar with hlt | hge <;> linarith⟩
    · have heq := degrees_huge hx hv (h h62) h65
      exact ⟨heq.le, by linarith, fun _ => by linarith⟩

end PocketCalculator
