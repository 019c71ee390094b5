import PocketCalculator.Template.Slot
import PocketCalculator.Proofs.Template.Halves
import Mathlib.Data.List.Infix

/-! # Where open slots stand

A slot of a text is a fraction of it, or one of the patterns of its kind stands there
(`exists_of_mem_slots`).  The patterns of a kind do not overlap, so where a pattern stands, the slot
is open that it marks (`simple_mem_slots`).  A slot needs all characters of a pattern, and a
fraction needs a slash, so a text that has neither has no open slot (`slots_eq_nil`). -/

namespace PocketCalculator

/-! ### Slots and their patterns -/

theorem exists_of_mem_occurrencesFrom {patterns : List Text} {start skip : Nat} {t : Text}
    {s : Span} (h : s ∈ occurrencesFrom patterns start skip t) :
    ∃ front p back, t = front ++ p ++ back ∧ p ∈ patterns ∧ s.start = start + front.length ∧
      s.stop = s.start + p.length := by
  -- a stretch found behind the first character lies one character further on
  have behind {start : Nat} {c : Char} {rest : Text}
      (ih : ∃ front p back, rest = front ++ p ++ back ∧ p ∈ patterns ∧
        s.start = start + 1 + front.length ∧ s.stop = s.start + p.length) :
      ∃ front p back, c :: rest = front ++ p ++ back ∧ p ∈ patterns ∧
        s.start = start + front.length ∧ s.stop = s.start + p.length := by
    obtain ⟨front, p, back, rfl, hp, hs, he⟩ := ih
    refine ⟨c :: front, p, back, rfl, hp, ?_, he⟩
    rw [List.length_cons]
    omega
  fun_induction occurrencesFrom patterns start skip t with
  | case1 => exact absurd h List.not_mem_nil
  | case2 start skip c rest ih => exact behind (ih h)
  | case3 start c rest p hfind ih =>
      rcases List.mem_cons.1 h with rfl | h
      · obtain ⟨back, hback⟩ := Text.startsWith_iff.1 (List.find?_some hfind)
        exact ⟨[], p, back, hback.symm, List.mem_of_find?_eq_some hfind, rfl, rfl⟩
      · exact behind (ih h)
  | case4 start c rest hfind ih => exact behind (ih h)

/-- A slot of a text is a fraction of it, or a pattern of its kind stands there. -/
theorem exists_of_mem_slots {t : Text} {slot : Slot} (h : slot ∈ slots t) :
    match slot with
    | .fraction f => f ∈ fractions t
    | .simple kind s => kind ∈ SlotKind.inOrder ∧ ∃ front p back, t = front ++ p ++ back ∧
        p ∈ kind.patterns ∧ s.start = front.length ∧ s.stop = s.start + p.length := by
  obtain ⟨kind, hkind, h⟩ := List.mem_flatMap.1 h
  by_cases hf : kind = .fraction
  · subst hf
    obtain ⟨f, hf, rfl⟩ := List.mem_map.1 h
    exact (List.mem_filter.1 hf).1
  · rw [slotsOfKind] at h
    · obtain ⟨s, hs, rfl⟩ := List.mem_map.1 h
      obtain ⟨front, p, back, ht, hp, hstart, hstop⟩ := exists_of_mem_occurrencesFrom hs
      exact ⟨hkind, front, p, back, ht, hp, by omega, hstop⟩
    · exact hf

theorem fraction_mem_slots_iff {t : Text} {f : FractionSpan} :
    .fraction f ∈ slots t ↔ f ∈ fractions t ∧ f.hasBlank = true := by
  rw [← List.mem_filter, slots, List.mem_flatMap]
  constructor
  · rintro ⟨kind, -, h⟩
    by_cases hk : kind = .fraction
    · subst hk
      obtain ⟨g, hg, he⟩ := List.mem_map.1 h
      cases he
      exact hg
    · rw [slotsOfKind] at h
      · obtain ⟨s, -, hs⟩ := List.mem_map.1 h
        cases hs
      · exact hk
  · exact fun h => ⟨.fraction, by decide, List.mem_map_of_mem h⟩

theorem slotNear_iff {t : Text} {place : Nat} : slotNear t place = true ↔
    ∃ slot ∈ slots t, slot.span.start ≤ place ∧ place ≤ slot.span.stop := by
  simp [slotNear, Span.touches]

theorem head?_slots_of_hasBlank {t : Text} {g : FractionSpan} (hg : g ∈ fractions t)
    (hb : g.hasBlank = true) : ∃ f, (slots t).head? = some (.fraction f) := by
  have hmem : g ∈ (fractions t).filter (·.hasBlank) := List.mem_filter.2 ⟨hg, hb⟩
  obtain ⟨f, rest, hf⟩ := List.exists_cons_of_ne_nil (List.ne_nil_of_mem hmem)
  refine ⟨f, ?_⟩
  rw [slots, SlotKind.inOrder, List.flatMap_cons, slotsOfKind, hf]
  rfl

/-- Patterns that do not overlap: where one of them stands, no other one begins, goes on or ends. -/
def Disjoined (patterns : List Text) : Prop :=
  ∀ q ∈ patterns, ∀ p ∈ patterns, ∀ n < q.length,
    q.drop n <+: p ∨ p <+: q.drop n → n = 0 ∧ q = p

instance : DecidablePred Disjoined :=
  fun patterns => inferInstanceAs (Decidable (∀ q ∈ patterns, ∀ p ∈ patterns, ∀ n < q.length,
    q.drop n <+: p ∨ p <+: q.drop n → n = 0 ∧ q = p))

/-- A pattern that overlaps with no other one is found where it stands. -/
theorem mem_occurrencesFrom {patterns : List Text} (hd : Disjoined patterns) {p : Text}
    (hp : p ∈ patterns) (hne : p ≠ []) (front back : Text) {skip : Nat}
    (hskip : skip ≤ front.length) (start : Nat) :
    ⟨start + front.length, start + front.length + p.length⟩ ∈
      occurrencesFrom patterns start skip (front ++ (p ++ back)) := by
  induction front generalizing start skip with
  | nil =>
      obtain rfl : skip = 0 := Nat.le_zero.1 hskip
      obtain ⟨c, w, rfl⟩ := List.exists_cons_of_ne_nil hne
      have hstarts : Text.startsWith (c :: (w ++ back)) (c :: w) = true :=
        Text.startsWith_iff.2 ⟨back, rfl⟩
      rw [List.nil_append, List.cons_append, occurrencesFrom]
      cases hfind : patterns.find? (Text.startsWith (c :: (w ++ back))) with
      | none => exact absurd hstarts (List.find?_eq_none.1 hfind _ hp)
      | some q =>
          have hq := Text.startsWith_iff.1 (List.find?_some hfind)
          have hor := List.prefix_or_prefix_of_prefix (List.prefix_append (c :: w) back) hq
          obtain ⟨-, rfl⟩ := hd _ hp q (List.mem_of_find?_eq_some hfind) 0 (by simp) hor
          exact List.mem_cons_self
  | cons a front ih =>
      have hplace : start + (a :: front).length = start + 1 + front.length := by
        rw [List.length_cons]
        omega
      rw [hplace, List.cons_append]
      cases skip with
      | succ skip => exact ih (Nat.le_of_succ_le_succ hskip) (start + 1)
      | zero =>
          rw [occurrencesFrom]
          cases hfind : patterns.find? (Text.startsWith (a :: (front ++ (p ++ back)))) with
          | none => exact ih (Nat.zero_le _) (start + 1)
          | some q =>
              refine List.mem_cons_of_mem _ (ih ?_ (start + 1))
              by_contra hlong
              -- the stretch in front would reach into the pattern
              have hq := List.IsPrefix.drop (Text.startsWith_iff.1 (List.find?_some hfind))
                (front.length + 1)
              rw [List.drop_succ_cons, List.drop_left] at hq
              have hor := List.prefix_or_prefix_of_prefix hq (List.prefix_append p back)
              have hmem := List.mem_of_find?_eq_some hfind
              exact absurd (hd q hmem p hp (front.length + 1) (by omega) hor).1 (by omega)

theorem disjoined_patterns (kind : SlotKind) : Disjoined kind.patterns := by
  cases kind <;> decide

/-- Where a pattern stands, the slot is open that it marks. -/
theorem simple_mem_slots {kind : SlotKind} (hkind : kind ∈ SlotKind.inOrder) {p : Text}
    (hp : p ∈ kind.patterns) (front back : Text) :
    .simple kind ⟨front.length, front.length + p.length⟩ ∈ slots (front ++ (p ++ back)) := by
  have key : ∀ kind ∈ SlotKind.inOrder, [] ∉ kind.patterns := by decide
  have hne : p ≠ [] := by
    rintro rfl
    exact key kind hkind hp
  have hfound := mem_occurrencesFrom (disjoined_patterns kind) hp hne front back (Nat.zero_le _) 0
  rw [Nat.zero_add] at hfound
  refine List.mem_flatMap.2 ⟨kind, hkind, ?_⟩
  rw [slotsOfKind]
  · exact List.mem_map_of_mem hfound
  · rintro rfl
    cases hp

theorem blank_mem_or_of_mem_patterns {kind : SlotKind} (hk : kind ∈ SlotKind.inOrder) {p : Text}
    (hp : p ∈ kind.patterns) :
    blankSymbol ∈ p ∨ ∃ f : CircularFunction, p = f.text ++ ['(', ')'] := by
  have key : ∀ kind ∈ SlotKind.inOrder, ∀ p ∈ kind.patterns,
      blankSymbol ∈ p ∨ ∃ f ∈ CircularFunction.all, p = f.text ++ ['(', ')'] := by decide
  exact (key kind hk p hp).imp_right fun ⟨f, _, h⟩ => ⟨f, h⟩

/-! ### Texts with open slots -/

theorem occurrencesFrom_ne_nil {patterns : List Text} {t p : Text} (hp : p ∈ patterns)
    (hne : p ≠ []) (h : p <:+: t) (start : Nat) : occurrencesFrom patterns start 0 t ≠ [] := by
  induction t generalizing start with
  | nil => exact absurd (List.infix_nil.1 h) hne
  | cons c t ih =>
      rw [occurrencesFrom]
      cases hfind : patterns.find? (Text.startsWith (c :: t)) with
      | some q => exact List.cons_ne_nil _ _
      | none =>
          rcases List.infix_cons_iff.1 h with hprefix | h
          · have hnot := List.find?_eq_none.1 hfind p hp
            exact absurd (Text.startsWith_iff.2 hprefix) hnot
          · exact ih h (start + 1)

theorem mem_emptyCircular_iff {p : Text} :
    p ∈ SlotKind.emptyCircular false ++ SlotKind.emptyCircular true ↔
      ∃ f : CircularFunction, p = f.text ++ ['(', ')'] := by
  constructor
  · intro h
    rcases List.mem_append.1 h with h | h
    · obtain ⟨c, -, rfl⟩ := List.mem_map.1 h
      exact ⟨_, rfl⟩
    · obtain ⟨c, -, rfl⟩ := List.mem_map.1 h
      exact ⟨_, rfl⟩
  · rintro ⟨⟨_ | _ | _, _ | _⟩, rfl⟩
    all_goals decide

/-- A slot is open where a blank symbol or an empty circular function stands. -/
theorem hasBlank_iff {t : Text} : hasBlank t = true ↔
    blankSymbol ∈ t ∨ ∃ f : CircularFunction, f.text ++ ['(', ')'] <:+: t := by
  have hcalls : occurrences (SlotKind.emptyCircular false ++ SlotKind.emptyCircular true) t ≠ [] ↔
      ∃ f : CircularFunction, f.text ++ ['(', ')'] <:+: t := by
    constructor
    · intro h
      obtain ⟨s, hs⟩ := List.exists_mem_of_ne_nil _ h
      obtain ⟨front, p, back, rfl, hp, -⟩ := exists_of_mem_occurrencesFrom hs
      obtain ⟨f, rfl⟩ := mem_emptyCircular_iff.1 hp
      exact ⟨f, front, back, rfl⟩
    · rintro ⟨f, h⟩
      have hne : f.text ++ ['(', ')'] ≠ [] := List.append_ne_nil_of_right_ne_nil _ (by decide)
      exact occurrencesFrom_ne_nil (mem_emptyCircular_iff.2 ⟨f, rfl⟩) hne h 0
  rw [hasBlank, Bool.or_eq_true, List.contains_iff_mem, decide_eq_true_eq, hcalls]

theorem exists_mem_slots {kind : SlotKind} {t p : Text} (hkind : kind ∈ SlotKind.inOrder)
    (hp : p ∈ kind.patterns) (h : p <:+: t) : ∃ s, .simple kind s ∈ slots t := by
  obtain ⟨front, back, rfl⟩ := h
  rw [List.append_assoc]
  exact ⟨_, simple_mem_slots hkind hp front back⟩

/-- A text has a blank or an empty circular function when a slot other than a fraction is open. -/
theorem hasBlank_iff_exists_slot {t : Text} :
    hasBlank t = true ↔ ∃ kind s, .simple kind s ∈ slots t := by
  rw [hasBlank_iff]
  constructor
  · rintro (hb | ⟨f, hf⟩)
    · obtain ⟨front, back, rfl⟩ := List.append_of_mem hb
      have hlone : SlotKind.lone ∈ SlotKind.inOrder := by decide
      exact ⟨.lone, _, simple_mem_slots hlone List.mem_cons_self front back⟩
    · rcases List.mem_append.1 (mem_emptyCircular_iff.2 ⟨f, rfl⟩) with hp | hp
      · exact ⟨.circular, exists_mem_slots (by decide) hp hf⟩
      · exact ⟨.inverse, exists_mem_slots (by decide) hp hf⟩
  · rintro ⟨kind, s, hs⟩
    obtain ⟨hkind, front, p, back, rfl, hp, -⟩ := exists_of_mem_slots hs
    rcases blank_mem_or_of_mem_patterns hkind hp with hb | ⟨f, rfl⟩
    · exact .inl (List.mem_append_left back (List.mem_append_right front hb))
    · exact .inr ⟨f, front, back, rfl⟩

/-! ### Texts without open slots -/

theorem occurrencesFrom_eq_nil {patterns : List Text} {t : Text} (h : ∀ p ∈ patterns, ¬p ⊆ t)
    (start : Nat) : occurrencesFrom patterns start 0 t = [] := by
  induction t generalizing start with
  | nil => rfl
  | cons d t ih =>
      have hnone : patterns.find? (Text.startsWith (d :: t)) = none := by
        rw [List.find?_eq_none]
        intro p hm hs
        obtain ⟨rest, hr⟩ := Option.isSome_iff_exists.1 hs
        have hsub := h p hm
        rw [Text.after?_eq_some_iff.1 hr] at hsub
        exact hsub (List.subset_append_left p rest)
      rw [occurrencesFrom, hnone]
      exact ih (fun p hm hs => h p hm (List.subset_cons_of_subset d hs)) (start + 1)

theorem fractions_eq_nil {t : Text} (h : '/' ∉ t) : fractions t = [] := by
  rw [List.eq_nil_iff_forall_not_mem]
  intro f hf
  obtain ⟨front, back, rest, rfl, -⟩ := exists_of_mem_fractions hf
  simp at h

/-- A text without a slash and without all characters of a pattern has no open slot. -/
theorem slots_eq_nil {t : Text} (hslash : '/' ∉ t)
    (h : ∀ kind ∈ SlotKind.inOrder, ∀ p ∈ kind.patterns, ¬p ⊆ t) : slots t = [] := by
  rw [slots, List.flatMap_eq_nil_iff]
  intro kind hk
  have hsimple : (occurrences kind.patterns t).map (Slot.simple kind) = [] := by
    rw [occurrences, occurrencesFrom_eq_nil (h kind hk) 0, List.map_nil]
  cases kind with
  | fraction =>
      rw [slotsOfKind, fractions_eq_nil hslash]
      rfl
  | _ => exact hsimple

theorem hasBlank_eq_false {t : Text} (hb : blankSymbol ∉ t)
    (h : ∀ p ∈ SlotKind.emptyCircular false ++ SlotKind.emptyCircular true, ¬p ⊆ t) :
    hasBlank t = false := by
  rw [hasBlank, occurrences, occurrencesFrom_eq_nil h 0, Bool.or_eq_false_iff]
  exact ⟨by simpa using hb, rfl⟩

end PocketCalculator
