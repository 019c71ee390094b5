import PocketCalculator.Proofs.Unit.Keyed
import Mathlib.Order.Bounds.Basic

/-! # Cutting a text at a boundary

Which head stands at a place is decided by what follows, so a text that is cut anywhere may have
other units.  At a boundary it keeps them (`units_take_append_drop`): a head that is read off the
whole text ends in front of the cut, and one that is read off the first part is read off the whole
text as well.  So the last unit in front of a cursor is the unit that is displayed there
(`getLast?_units_take`).

A position is snapped to the greatest boundary that is not above it (`snap_isGreatest`), and this
makes snapping idempotent and monotone.  `boundaries_cut_units` collects these laws. -/

namespace PocketCalculator

variable {t front back u : Text} {l r : List Text}

/-! ### Units of the parts -/

theorem mem_heads_or_length_eq_one (h : u ∈ units t) :
    u ∈ Head.all.map Head.text ∨ u.length = 1 := by
  fun_induction units t with
  | case1 => exact absurd h List.not_mem_nil
  | case2 c rest head rest' hread ih =>
      rcases List.mem_cons.1 h with rfl | h
      · exact .inl (List.mem_map_of_mem head.mem_all)
      · exact ih h
  | case3 c rest hread ih =>
      rcases List.mem_cons.1 h with rfl | h
      · exact .inr rfl
      · exact ih h

theorem units_flatten_of_append_right (h : units t = l ++ r) : units l.flatten = l := by
  fun_induction units t generalizing l with
  | case1 =>
      obtain ⟨rfl, rfl⟩ := List.append_eq_nil_iff.1 h.symm
      exact units_nil
  | case2 c rest head rest' hread ih =>
      cases l with
      | nil => exact units_nil
      | cons u l =>
          rw [List.cons_append, List.cons.injEq] at h
          obtain ⟨rfl, h⟩ := h
          rw [List.flatten_cons, units_head_append, ih h]
  | case3 c rest hread ih =>
      cases l with
      | nil => exact units_nil
      | cons u l =>
          rw [List.cons_append, List.cons.injEq] at h
          obtain ⟨rfl, h⟩ := h
          have hrest : rest = l.flatten ++ r.flatten := by
            rw [← flatten_units rest, h, List.flatten_append]
          -- a head at the beginning of the first units is one at the beginning of the text
          have hnone : Head.read? (c :: l.flatten) = none := by
            refine Head.read?_eq_none fun head hp => ?_
            obtain ⟨tail, htail⟩ := hp.trans (List.prefix_append (c :: l.flatten) r.flatten)
            rw [List.cons_append, ← hrest] at htail
            rw [← htail, head.read?_text_append] at hread
            cases hread
          rw [List.flatten_cons, List.singleton_append, units_cons_of_char hnone, ih h]

theorem units_append_of_mem_boundaries (h : front.length ∈ boundaries (front ++ back)) :
    units (front ++ back) = units front ++ units back := by
  obtain ⟨l, hl, rfl⟩ := units_of_mem_boundaries h
  rw [hl, units_flatten_of_append_right hl]

theorem units_take_append_drop {b : Nat} (hb : b ∈ boundaries t) :
    units t = units (t.take b) ++ units (t.drop b) := by
  have hlength : (t.take b).length = b := List.length_take_of_le (le_length_of_mem_boundaries hb)
  have h : (t.take b).length ∈ boundaries (t.take b ++ t.drop b) := by
    rwa [hlength, List.take_append_drop]
  have hunits := units_append_of_mem_boundaries h
  rwa [List.take_append_drop] at hunits

/-- The last unit of the text in front of the place where a unit ends is this unit. -/
theorem getLast?_units_take (h : units t = l ++ u :: r) :
    (units (t.take (l ++ [u]).flatten.length)).getLast? = some u := by
  have hsplit : units t = (l ++ [u]) ++ r := by rw [h, List.append_assoc, List.singleton_append]
  have htake : t.take (l ++ [u]).flatten.length = (l ++ [u]).flatten := by
    rw [← flatten_units t, hsplit, @List.flatten_append _ (l ++ [u]) r, List.take_left]
  rw [htake, units_flatten_of_append_right hsplit, List.getLast?_concat]

/-! ### The first and the last boundary -/

theorem head?_boundaries (t : Text) : (boundaries t).head? = some 0 := by
  rw [boundaries]
  cases units t <;> rfl

theorem getLast?_boundaries (t : Text) : (boundaries t).getLast? = some t.length := by
  have key (start : Nat) (us : List Text) :
      (boundariesFrom start us).getLast? = some (start + us.flatten.length) := by
    induction us generalizing start with
    | nil => rfl
    | cons u us ih =>
        rw [boundariesFrom, List.getLast?_cons, ih, Option.getD_some, List.flatten_cons,
          List.length_append, Nat.add_assoc]
  rw [boundaries, key, flatten_units, Nat.zero_add]

/-! ### Snapping -/

/-- A boundary of a text is not above the last one up to a place behind it. -/
theorem le_getLastD_takeWhile_boundaries {b place : Nat} (hb : b ∈ boundaries t) (h : b ≤ place) :
    b ≤ ((boundaries t).takeWhile (· ≤ place)).getLastD 0 := by
  obtain ⟨l, r, hlr⟩ := List.append_of_mem hb
  have hsorted := pairwise_boundaries t
  rw [hlr, List.pairwise_append, List.pairwise_cons] at hsorted
  obtain ⟨-, ⟨hr, -⟩, hl⟩ := hsorted
  have hfront : ∀ a ∈ l, decide (a ≤ place) = true := by
    intro a ha
    exact decide_eq_true ((hl a ha b List.mem_cons_self).le.trans h)
  rw [hlr, List.takeWhile_append_of_pos hfront,
    List.takeWhile_cons_of_pos (p := (· ≤ place)) (decide_eq_true h),
    List.getLastD_eq_getLast?, List.getLast?_append, List.getLast?_cons]
  cases hlast : (r.takeWhile (· ≤ place)).getLast? with
  | none => exact Nat.le_refl b
  | some a =>
      have ha := (List.takeWhile_prefix _).subset (List.mem_of_getLast? hlast)
      exact (hr a ha).le

/-- A position is snapped to the greatest boundary that is not above it. -/
theorem snap_isGreatest (t : Text) (p : Int) :
    IsGreatest {b : Nat | b ∈ boundaries t ∧ (b : Int) ≤ max 0 (min p t.length)} (snap t p) := by
  have hinside {b : Nat} : (b : Int) ≤ max 0 (min p t.length) ↔ b ≤ min p.toNat t.length := by
    omega
  constructor
  · refine ⟨snap_mem_boundaries t p, hinside.2 (Nat.le_min.2 ⟨snap_le t p, ?_⟩)⟩
    exact le_length_of_mem_boundaries (snap_mem_boundaries t p)
  · rintro b ⟨hb, hle⟩
    exact le_getLastD_takeWhile_boundaries hb (hinside.1 hle)

theorem snap_snap (t : Text) (p : Int) : snap t (snap t p) = snap t p :=
  snap_of_mem_boundaries (snap_mem_boundaries t p)

theorem snap_le_snap (t : Text) {p q : Int} (hpq : p ≤ q) : snap t p ≤ snap t q := by
  refine (snap_isGreatest t p).mono (snap_isGreatest t q) ?_
  rintro b ⟨hb, hle⟩
  exact ⟨hb, by omega⟩

/-! ### All laws together -/

/-- The units of a text make it up, and each of them is a head or a single character.  The
boundaries ascend strictly from the beginning of the text to its end, and each of them cuts the text
into texts with its units, so that the last unit in front of it is the one displayed there.
A position is snapped to the greatest boundary that is not above it, idempotently and
monotonically. -/
theorem boundaries_cut_units (t : Text) :
    (units t).flatten = t ∧
      (∀ u ∈ units t, u ∈ Head.all.map Head.text ∨ u.length = 1) ∧
      ((boundaries t).Pairwise (· < ·) ∧ (boundaries t).head? = some 0 ∧
        (boundaries t).getLast? = some t.length) ∧
      (∀ b ∈ boundaries t, units t = units (t.take b) ++ units (t.drop b)) ∧
      (∀ l u r, units t = l ++ u :: r →
        (units (t.take (l ++ [u]).flatten.length)).getLast? = some u) ∧
      (∀ p : Int, IsGreatest
        {b : Nat | b ∈ boundaries t ∧ (b : Int) ≤ max 0 (min p t.length)} (snap t p)) ∧
      (∀ p : Int, snap t (snap t p) = snap t p) ∧
      ∀ p q : Int, p ≤ q → snap t p ≤ snap t q :=
  ⟨flatten_units t, fun _ hu => mem_heads_or_length_eq_one hu,
    ⟨pairwise_boundaries t, head?_boundaries t, getLast?_boundaries t⟩,
    fun _ hb => units_take_append_drop hb, fun _ _ _ h => getLast?_units_take h,
    snap_isGreatest t, snap_snap t, fun _ _ hpq => snap_le_snap t hpq⟩

-- cut inside of a head, a text has other units
example : units "5sin(".toList = [['5'], "sin(".toList] ∧
    units ("5sin(".toList.take 2) ++ units ("5sin(".toList.drop 2) =
      [['5'], ['s'], ['i'], ['n'], ['(']] := by
  decide +kernel

end PocketCalculator
