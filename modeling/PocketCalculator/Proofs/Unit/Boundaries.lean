import PocketCalculator.Unit
import Mathlib.Data.List.TakeWhile

/-! # Boundaries of a text

The boundaries of a text are the lengths of its initial runs of units.  A place of a text fails to
be a boundary only when a head lies across it, so `length_mem_boundaries` reduces the question
whether a cursor may rest somewhere to the few characters around the place.  From a boundary on, the
units of a text are those of the rest of it, and `add_mem_boundaries` shifts boundaries of the rest
into the whole text.

The functions that look for a boundary all answer with one: `snap_mem_boundaries`,
`boundaryBefore_mem_boundaries` and `boundaryAfter_mem_boundaries`.  Boundaries ascend, and the one
before and the one after lead to and fro between neighbours (`boundaryBefore_of_eq`,
`boundaryAfter_of_eq`). -/

namespace PocketCalculator

/-! ### Places reached by stepping over units -/

theorem mem_boundariesFrom_iff {start p : Nat} {us : List Text} :
    p ∈ boundariesFrom start us ↔ ∃ l r, us = l ++ r ∧ p = start + l.flatten.length := by
  induction us generalizing start with
  | nil =>
      simp [boundariesFrom]
  | cons u us ih =>
      rw [boundariesFrom, List.mem_cons, ih]
      constructor
      · rintro (rfl | ⟨l, r, rfl, rfl⟩)
        · exact ⟨[], u :: us, rfl, rfl⟩
        · refine ⟨u :: l, r, rfl, ?_⟩
          rw [List.flatten_cons, List.length_append]
          omega
      · rintro ⟨l, r, hlr, rfl⟩
        cases l with
        | nil => exact .inl rfl
        | cons v l =>
            rw [List.cons_append, List.cons.injEq] at hlr
            obtain ⟨rfl, rfl⟩ := hlr
            refine .inr ⟨l, r, rfl, ?_⟩
            rw [List.flatten_cons, List.length_append]
            omega

theorem mem_boundaries_iff {t : Text} {p : Nat} :
    p ∈ boundaries t ↔ ∃ l r, units t = l ++ r ∧ p = l.flatten.length := by
  rw [boundaries, mem_boundariesFrom_iff]
  simp only [Nat.zero_add]

theorem zero_mem_boundaries (t : Text) : 0 ∈ boundaries t :=
  mem_boundaries_iff.2 ⟨[], units t, rfl, rfl⟩

theorem length_self_mem_boundaries (t : Text) : t.length ∈ boundaries t := by
  refine mem_boundaries_iff.2 ⟨units t, [], (List.append_nil _).symm, ?_⟩
  rw [flatten_units]

theorem le_length_of_mem_boundaries {t : Text} {p : Nat} (h : p ∈ boundaries t) :
    p ≤ t.length := by
  obtain ⟨l, r, hlr, rfl⟩ := mem_boundaries_iff.1 h
  have ht := congrArg List.length (flatten_units t)
  rw [hlr, List.flatten_append, List.length_append] at ht
  omega

/-! ### The functions that look for a boundary -/

theorem ne_nil_of_mem_units {t u : Text} (h : u ∈ units t) : u ≠ [] := by
  fun_induction units t with
  | case1 => exact absurd h List.not_mem_nil
  | case2 c rest head rest' hread ih =>
      rcases List.mem_cons.1 h with rfl | h
      · exact head.text_ne_nil
      · exact ih h
  | case3 c rest hread ih =>
      rcases List.mem_cons.1 h with rfl | h
      · exact List.cons_ne_nil c []
      · exact ih h

theorem exists_units_concat {t : Text} (h : t ≠ []) :
    ∃ l u, units t = l ++ [u] ∧ t = l.flatten ++ u := by
  have ht := flatten_units t
  rcases List.eq_nil_or_concat (units t) with hnil | ⟨l, u, hl⟩
  · rw [hnil] at ht
    exact absurd ht.symm h
  · rw [List.concat_eq_append] at hl
    rw [hl, List.flatten_append, List.flatten_singleton] at ht
    exact ⟨l, u, hl, ht.symm⟩

/-- Of the places reached over `l ++ r`, the last one up to the end of `l` is that end. -/
theorem getLastD_takeWhile_boundariesFrom {l r : List Text} (hr : ∀ u ∈ r, u ≠ [])
    (start d : Nat) :
    ((boundariesFrom start (l ++ r)).takeWhile (· ≤ start + l.flatten.length)).getLastD d =
      start + l.flatten.length := by
  induction l generalizing start d with
  | nil =>
      cases r with
      | nil => simp [boundariesFrom]
      | cons u r =>
          have hu := List.length_pos_iff.2 (hr u List.mem_cons_self)
          have hstop : ¬start + u.length ≤ start := by omega
          have hnext : (boundariesFrom (start + u.length) r).takeWhile (· ≤ start) = [] := by
            cases r with
            | nil => exact List.takeWhile_cons_of_neg fun h => hstop (of_decide_eq_true h)
            | cons v r => exact List.takeWhile_cons_of_neg fun h => hstop (of_decide_eq_true h)
          simp [boundariesFrom, hnext]
  | cons u l ih =>
      have hlen : start + (u :: l).flatten.length = start + u.length + l.flatten.length := by
        rw [List.flatten_cons, List.length_append, Nat.add_assoc]
      rw [hlen, List.cons_append, boundariesFrom, List.takeWhile_cons_of_pos (by simp; omega),
        List.getLastD_cons]
      exact ih _ _

theorem snap_of_mem_boundaries {t : Text} {p : Nat} (h : p ∈ boundaries t) : snap t p = p := by
  have hinside : min (p : Int).toNat t.length = p := by
    rw [Int.toNat_natCast]
    exact Nat.min_eq_left (le_length_of_mem_boundaries h)
  obtain ⟨l, r, hlr, rfl⟩ := mem_boundaries_iff.1 h
  have hr : ∀ u ∈ r, u ≠ [] := by
    intro u hu
    exact ne_nil_of_mem_units (hlr ▸ List.mem_append_right l hu)
  have hlast := getLastD_takeWhile_boundariesFrom (l := l) hr 0 0
  rw [snap, hinside, boundaries, hlr]
  simpa only [Nat.zero_add] using hlast

theorem snap_length (t : Text) : snap t t.length = t.length :=
  snap_of_mem_boundaries (length_self_mem_boundaries t)

/-- The last boundary with a property that all boundaries up to it have, and otherwise the
beginning. -/
theorem getLastD_takeWhile_boundaries (t : Text) (p : Nat → Bool) :
    ((boundaries t).takeWhile p).getLastD 0 = 0 ∨
      ((boundaries t).takeWhile p).getLastD 0 ∈ (boundaries t).takeWhile p := by
  rcases h : (boundaries t).takeWhile p with _ | ⟨b, bs⟩
  · exact .inl rfl
  · rw [List.getLastD_eq_getLast?, List.getLast?_eq_some_getLast (List.cons_ne_nil b bs)]
    exact .inr (List.getLast_mem _)

theorem getLastD_takeWhile_mem_boundaries (t : Text) (p : Nat → Bool) :
    ((boundaries t).takeWhile p).getLastD 0 ∈ boundaries t := by
  rcases getLastD_takeWhile_boundaries t p with h | h
  · rw [h]
    exact zero_mem_boundaries t
  · exact (List.takeWhile_prefix p).subset h

theorem snap_mem_boundaries (t : Text) (position : Int) : snap t position ∈ boundaries t :=
  getLastD_takeWhile_mem_boundaries t _

theorem snap_le (t : Text) (position : Int) : snap t position ≤ position.toNat := by
  rcases getLastD_takeWhile_boundaries t (· ≤ min position.toNat t.length) with h | h
  · exact h.trans_le (Nat.zero_le _)
  · have hinside := List.mem_takeWhile_imp h
    exact (of_decide_eq_true hinside).trans (Nat.min_le_left _ _)

theorem boundaryBefore_mem_boundaries (t : Text) (cursor : Nat) :
    boundaryBefore t cursor ∈ boundaries t :=
  getLastD_takeWhile_mem_boundaries t _

theorem boundaryAfter_mem_boundaries (t : Text) (cursor : Nat) :
    boundaryAfter t cursor ∈ boundaries t := by
  unfold boundaryAfter
  dsimp only
  cases h : (boundaries t).find? (snap t cursor < ·) with
  | none => exact snap_mem_boundaries t cursor
  | some b => exact List.mem_of_find?_eq_some h

/-! ### Places across which no head lies -/

theorem mem_boundaries_cons_of_char {c : Char} {rest : Text} {p : Nat}
    (h : Head.read? (c :: rest) = none) (hp : p ∈ boundaries rest) :
    p + 1 ∈ boundaries (c :: rest) := by
  obtain ⟨l, r, hlr, rfl⟩ := mem_boundaries_iff.1 hp
  refine mem_boundaries_iff.2 ⟨[c] :: l, r, ?_, ?_⟩
  · rw [units_cons_of_char h, hlr, List.cons_append]
  · rw [List.flatten_cons, List.length_append, List.length_singleton, Nat.add_comm]

theorem mem_boundaries_cons_of_head {c : Char} {rest rest' : Text} {head : Head} {p : Nat}
    (h : Head.read? (c :: rest) = some (head, rest')) (hp : p ∈ boundaries rest') :
    head.text.length + p ∈ boundaries (c :: rest) := by
  obtain ⟨l, r, hlr, rfl⟩ := mem_boundaries_iff.1 hp
  refine mem_boundaries_iff.2 ⟨head.text :: l, r, ?_, ?_⟩
  · rw [units_cons_of_head h, hlr, List.cons_append]
  · rw [List.flatten_cons, List.length_append]

/-- No head lies across the place between two texts: none of them begins at the end of the first
one and goes on in the second one. -/
def Parted (front back : Text) : Prop :=
  ∀ (head : Head) (l r : Text), head.text = l ++ r → l ≠ [] → r ≠ [] → l <:+ front → ¬ r <+: back

theorem Parted.of_suffix {front front' back : Text} (h : Parted front back)
    (hs : front' <:+ front) : Parted front' back := by
  intro head l r hlr hl hr hlf
  exact h head l r hlr hl hr (hlf.trans hs)

/-- The place between two texts is a boundary when no head lies across it. -/
theorem length_mem_boundaries {front back : Text} (h : Parted front back) :
    front.length ∈ boundaries (front ++ back) := by
  generalize ht : front ++ back = t
  fun_induction units t generalizing front with
  | case1 =>
      obtain ⟨rfl, rfl⟩ := List.append_eq_nil_iff.1 ht
      exact zero_mem_boundaries []
  | case2 c rest head rest' hread ih =>
      rcases List.append_eq_append_iff.1 (ht.trans (Head.read?_eq_some hread)) with
        ⟨r, hr, rfl⟩ | ⟨front', rfl, hrest⟩
      · -- the head reaches up to the place or beyond it
        by_cases hf : front = []
        · subst hf
          exact zero_mem_boundaries _
        · by_cases hr0 : r = []
          · subst hr0
            rw [List.append_nil] at hr
            have h0 := mem_boundaries_cons_of_head hread (zero_mem_boundaries rest')
            rwa [hr] at h0
          · exact absurd (List.prefix_append r rest') (h head front r hr hf hr0 List.suffix_rfl)
      · have hp := ih (h.of_suffix (List.suffix_append head.text front')) hrest.symm
        rw [List.length_append]
        exact mem_boundaries_cons_of_head hread hp
  | case3 c rest hread ih =>
      cases front with
      | nil => exact zero_mem_boundaries _
      | cons d front =>
          rw [List.cons_append, List.cons.injEq] at ht
          obtain ⟨rfl, ht⟩ := ht
          exact mem_boundaries_cons_of_char hread (ih (h.of_suffix (List.suffix_cons d front)) ht)

/-! ### Boundaries of the rest of a text -/

theorem units_flatten_of_append {t : Text} {l r : List Text} (h : units t = l ++ r) :
    units r.flatten = r := by
  fun_induction units t generalizing l with
  | case1 =>
      obtain ⟨rfl, rfl⟩ := List.append_eq_nil_iff.1 h.symm
      exact units_nil
  | case2 c rest head rest' hread ih =>
      cases l with
      | nil =>
          rw [List.nil_append] at h
          rw [← h, List.flatten_cons, flatten_units, ← Head.read?_eq_some hread]
          exact units_cons_of_head hread
      | cons u l =>
          rw [List.cons_append, List.cons.injEq] at h
          exact ih h.2
  | case3 c rest hread ih =>
      cases l with
      | nil =>
          rw [List.nil_append] at h
          rw [← h, List.flatten_cons, flatten_units]
          exact units_cons_of_char hread
      | cons u l =>
          rw [List.cons_append, List.cons.injEq] at h
          exact ih h.2

theorem units_of_mem_boundaries {front back : Text}
    (h : front.length ∈ boundaries (front ++ back)) :
    ∃ l, units (front ++ back) = l ++ units back ∧ l.flatten = front := by
  obtain ⟨l, r, hlr, hlen⟩ := mem_boundaries_iff.1 h
  have ht := flatten_units (front ++ back)
  rw [hlr, List.flatten_append] at ht
  obtain ⟨hl, hr⟩ := List.append_inj ht hlen.symm
  refine ⟨l, ?_, hl⟩
  rw [hlr, ← hr, units_flatten_of_append hlr]

/-- A boundary of the rest behind a boundary is a boundary of the whole text. -/
theorem add_mem_boundaries {front back : Text} {p : Nat}
    (h : front.length ∈ boundaries (front ++ back)) (hp : p ∈ boundaries back) :
    front.length + p ∈ boundaries (front ++ back) := by
  obtain ⟨l, hl, rfl⟩ := units_of_mem_boundaries h
  obtain ⟨l', r, hlr, rfl⟩ := mem_boundaries_iff.1 hp
  refine mem_boundaries_iff.2 ⟨l ++ l', r, ?_, ?_⟩
  · rw [hl, hlr, List.append_assoc]
  · rw [List.flatten_append, List.length_append]

/-! ### Neighbouring boundaries -/

theorem pairwise_boundariesFrom {us : List Text} (h : ∀ u ∈ us, u ≠ []) (start : Nat) :
    (boundariesFrom start us).Pairwise (· < ·) := by
  induction us generalizing start with
  | nil => exact List.pairwise_singleton _ _
  | cons u us ih =>
      have hu := List.length_pos_iff.2 (h u List.mem_cons_self)
      refine List.pairwise_cons.2 ⟨fun p hp => ?_, ih (fun v hv => h v (List.mem_cons_of_mem u hv)) _⟩
      obtain ⟨l, r, -, rfl⟩ := mem_boundariesFrom_iff.1 hp
      omega

theorem pairwise_boundaries (t : Text) : (boundaries t).Pairwise (· < ·) :=
  pairwise_boundariesFrom (fun _ hu => ne_nil_of_mem_units hu) 0

section neighbours

variable {t : Text} {p q : Nat} {l r : List Nat}

theorem lt_of_boundaries_eq (h : boundaries t = l ++ q :: p :: r) :
    (∀ b ∈ l, b < q) ∧ q < p := by
  have hsorted := pairwise_boundaries t
  rw [h, List.pairwise_append, List.pairwise_cons] at hsorted
  obtain ⟨-, ⟨hq, -⟩, hl⟩ := hsorted
  exact ⟨fun b hb => hl b hb q List.mem_cons_self, hq p List.mem_cons_self⟩

theorem boundaryBefore_of_eq (h : boundaries t = l ++ q :: p :: r) : boundaryBefore t p = q := by
  obtain ⟨hl, hqp⟩ := lt_of_boundaries_eq h
  have hp : snap t p = p := snap_of_mem_boundaries (by simp [h])
  rw [boundaryBefore, hp, h]
  rw [List.takeWhile_append_of_pos (fun b hb => decide_eq_true ((hl b hb).trans hqp))]
  simp [hqp]

theorem boundaryAfter_of_eq (h : boundaries t = l ++ q :: p :: r) : boundaryAfter t q = p := by
  obtain ⟨hl, hqp⟩ := lt_of_boundaries_eq h
  have hq : snap t q = q := snap_of_mem_boundaries (by simp [h])
  have hnone : l.find? (q < ·) = none := by
    rw [List.find?_eq_none]
    intro b hb
    have := hl b hb
    simp only [decide_eq_true_eq]
    omega
  rw [boundaryAfter, hq, h]
  rw [List.find?_append, hnone]
  simp [hqp]

theorem exists_boundary_before (hp : p ∈ boundaries t) (h0 : p ≠ 0) :
    ∃ l q r, boundaries t = l ++ q :: p :: r := by
  obtain ⟨front, r, hr⟩ := List.append_of_mem hp
  rcases List.eq_nil_or_concat front with rfl | ⟨l, q, rfl⟩
  · have hzero := zero_mem_boundaries t
    have hsorted := pairwise_boundaries t
    rw [hr, List.nil_append] at hzero hsorted
    rcases List.mem_cons.1 hzero with h | h
    · exact absurd h.symm h0
    · exact absurd ((List.pairwise_cons.1 hsorted).1 0 h) (Nat.not_lt_zero p)
  · exact ⟨l, q, r, by rw [hr, List.concat_eq_append, List.append_assoc]; rfl⟩

theorem exists_boundary_behind (hq : q ∈ boundaries t) (hend : q ≠ t.length) :
    ∃ l p r, boundaries t = l ++ q :: p :: r := by
  obtain ⟨l, back, hr⟩ := List.append_of_mem hq
  cases back with
  | cons p r => exact ⟨l, p, r, hr⟩
  | nil =>
      have hlength := length_self_mem_boundaries t
      have hsorted := pairwise_boundaries t
      have hle := le_length_of_mem_boundaries hq
      rw [hr, List.pairwise_append] at hsorted
      rw [hr] at hlength
      rcases List.mem_append.1 hlength with h | h
      · have := hsorted.2.2 _ h q List.mem_cons_self
        omega
      · exact absurd (List.mem_singleton.1 h).symm hend

end neighbours

end PocketCalculator
