import PocketCalculator.Template.Fraction
import PocketCalculator.Proofs.Symbol.Heads
import PocketCalculator.Proofs.Unit.Boundaries

/-! # The halves of a fraction

A fraction of a text stands in it with its slash, and the halves are read off where they stand:
`exists_of_mem_fractions`.  Each half ends on a boundary of the text, which is
`FractionSpan.halfStop_mem_boundaries`: no head has a slash, so none lies across the places next to
the slash, and none begins inside of a denominator and goes on behind it. -/

namespace PocketCalculator

/-! ### Where fractions stand -/

theorem readHalf?_blank (rest : Text) :
    readHalf? (blankSymbol :: rest) = some ([blankSymbol], rest) := by
  simp [readHalf?, Text.after?]

theorem readHalf?_ansName (rest : Text) : readHalf? (ansName ++ rest) = some (ansName, rest) := by
  simp [readHalf?, Text.after?, ansName, blankSymbol]

theorem readHalf?_eq_some {t half rest : Text} (h : readHalf? t = some (half, rest)) :
    t = half ++ rest ∧ (half = [blankSymbol] ∨ half = ansName ∨
      half ≠ [] ∧ half = t.takeWhile isPlainNumeralChar) := by
  unfold readHalf? at h
  split at h
  · rename_i r hr
    cases h
    exact ⟨Text.after?_eq_some_iff.1 hr, .inl rfl⟩
  · split at h
    · rename_i r hr
      cases h
      exact ⟨Text.after?_eq_some_iff.1 hr, .inr (.inl rfl)⟩
    · split at h
      · cases h
      · rename_i hrun
        cases h
        exact ⟨List.takeWhile_append_dropWhile.symm, .inr (.inr ⟨hrun, rfl⟩)⟩

theorem readFraction?_eq_some {t numerator denominator : Text}
    (h : readFraction? t = some (numerator, denominator)) :
    ∃ back rest, t = numerator ++ '/' :: back ∧ readHalf? back = some (denominator, rest) := by
  obtain ⟨⟨n, r⟩, hn, h⟩ := Option.bind_eq_some_iff.1 h
  obtain ⟨back, hb, h⟩ := Option.bind_eq_some_iff.1 h
  obtain ⟨⟨d, rest⟩, hd, h⟩ := Option.bind_eq_some_iff.1 h
  cases h
  refine ⟨back, rest, ?_, hd⟩
  rw [(readHalf?_eq_some hn).1, Text.after?_eq_some_iff.1 hb]
  rfl

theorem exists_of_mem_fractionsFrom {start skip : Nat} {t : Text} {f : FractionSpan}
    (h : f ∈ fractionsFrom start skip t) :
    ∃ front tail, t = front ++ tail ∧ f.start = start + front.length ∧
      readFraction? tail = some (f.numerator, f.denominator) := by
  -- a fraction found behind the first character stands one character further on
  have behind {start : Nat} {c : Char} {rest : Text}
      (ih : ∃ front tail, rest = front ++ tail ∧ f.start = start + 1 + front.length ∧
        readFraction? tail = some (f.numerator, f.denominator)) :
      ∃ front tail, c :: rest = front ++ tail ∧ f.start = start + front.length ∧
        readFraction? tail = some (f.numerator, f.denominator) := by
    obtain ⟨front, tail, rfl, hs, hr⟩ := ih
    refine ⟨c :: front, tail, rfl, ?_, hr⟩
    rw [List.length_cons]
    omega
  fun_induction fractionsFrom start skip t with
  | case1 => exact absurd h List.not_mem_nil
  | case2 start skip c rest ih => exact behind (ih h)
  | case3 start c rest numerator denominator hread g ih =>
      rcases List.mem_cons.1 h with rfl | h
      · exact ⟨[], c :: rest, rfl, rfl, hread⟩
      · exact behind (ih h)
  | case4 start c rest hread ih => exact behind (ih h)

/-- A fraction of a text stands in it, and its denominator is read off behind the slash. -/
theorem exists_of_mem_fractions {t : Text} {f : FractionSpan} (h : f ∈ fractions t) :
    ∃ front back rest, t = front ++ f.numerator ++ '/' :: back ∧ f.start = front.length ∧
      readHalf? back = some (f.denominator, rest) := by
  obtain ⟨front, tail, rfl, hs, hr⟩ := exists_of_mem_fractionsFrom h
  obtain ⟨back, rest, rfl, hd⟩ := readFraction?_eq_some hr
  refine ⟨front, back, rest, ?_, by omega, hd⟩
  rw [List.append_assoc]

theorem mem_fractions_of_findFraction? {t : Text} {position : Option Int} {f : FractionSpan}
    (h : findFraction? t position = some f) : f ∈ fractions t := by
  simp only [findFraction?, Option.orElse_eq_orElse, Option.orElse_eq_or] at h
  rcases Option.or_eq_some_iff.1 h with h | ⟨-, h⟩
  · obtain ⟨p, -, h⟩ := Option.bind_eq_some_iff.1 h
    exact List.mem_of_find?_eq_some h
  · rcases Option.or_eq_some_iff.1 h with h | ⟨-, h⟩
    · exact List.mem_of_find?_eq_some h
    · exact List.mem_of_mem_head? h

theorem fractions_ne_nil {front tail : Text} (h : readFraction? tail ≠ none) :
    fractions (front ++ tail) ≠ [] := by
  have key (start : Nat) : fractionsFrom start 0 (front ++ tail) ≠ [] := by
    induction front generalizing start with
    | nil =>
        obtain ⟨⟨numerator, denominator⟩, hread⟩ := Option.ne_none_iff_exists'.1 h
        cases tail with
        | nil => simp [readFraction?, readHalf?, Text.after?, ansName] at hread
        | cons c tail => simp [fractionsFrom, hread]
    | cons c front ih =>
        cases hread : readFraction? (c :: (front ++ tail)) with
        | none =>
            rw [List.cons_append, fractionsFrom_of_none hread]
            exact ih (start + 1)
        | some f => simp [fractionsFrom, hread]
  exact key 0

theorem findFraction?_eq_none_iff {t : Text} {position : Option Int} :
    findFraction? t position = none ↔ fractions t = [] := by
  constructor
  · intro h
    simp only [findFraction?, Option.orElse_eq_orElse, Option.orElse_eq_or,
      Option.or_eq_none_iff] at h
    exact List.head?_eq_none_iff.1 h.2.2
  · intro h
    simp [findFraction?, h]

/-! ### Where halves end -/

theorem Head.head?_text {h : Head} {c : Char} (hc : h.text.head? = some c) :
    isPlainNumeralChar c = false ∧ c ≠ blankSymbol := by
  have key : ∀ g ∈ all,
      g.text.head?.all (fun d => isPlainNumeralChar d = false ∧ d ≠ blankSymbol) = true := by
    decide
  have hh := forall_head key h
  rw [hc] at hh
  exact of_decide_eq_true hh

theorem parted_slash (front back : Text) : Parted front ('/' :: back) := by
  intro head l r hlr hl hr hfront hback
  obtain ⟨c, r, rfl⟩ := List.exists_cons_of_ne_nil hr
  obtain ⟨rfl, -⟩ := List.cons_prefix_cons.1 hback
  refine head.slash_not_mem ?_
  rw [hlr]
  exact List.mem_append_right l List.mem_cons_self

theorem parted_of_slash (front back : Text) : Parted (front ++ ['/']) back := by
  intro head l r hlr hl hr hfront hback
  obtain ⟨u, hu⟩ := hfront
  obtain ⟨l, c, rfl⟩ := (List.eq_nil_or_concat l).resolve_left hl
  rw [List.concat_eq_append, ← List.append_assoc] at hu
  obtain ⟨-, hc⟩ := List.append_inj' hu rfl
  rw [List.concat_eq_append, hc] at hlr
  refine head.slash_not_mem ?_
  rw [hlr]
  exact List.mem_append_left r List.mem_concat_self

theorem parted_of_forall {front : Text} (back : Text)
    (h : ∀ c ∈ front, ∀ head : Head, head.text.head? ≠ some c) : Parted front back := by
  intro head l r hlr hl hr hfront hback
  obtain ⟨c, l, rfl⟩ := List.exists_cons_of_ne_nil hl
  refine h c (hfront.subset List.mem_cons_self) head ?_
  rw [hlr]
  rfl

theorem length_mem_boundaries_of_readHalf? {t half rest : Text}
    (h : readHalf? t = some (half, rest)) : half.length ∈ boundaries t := by
  obtain ⟨rfl, rfl | rfl | ⟨-, hrun⟩⟩ := readHalf?_eq_some h
  · refine length_mem_boundaries (parted_of_forall rest fun c hc head hh => ?_)
    exact (Head.head?_text hh).2 (List.mem_singleton.1 hc)
  · exact mem_boundaries_cons_of_head (Head.read?_text_append .ans rest) (zero_mem_boundaries rest)
  · refine length_mem_boundaries (parted_of_forall rest fun c hc head hh => ?_)
    rw [hrun] at hc
    have hp := List.all_takeWhile (p := isPlainNumeralChar) (l := half ++ rest)
    have hc' := List.all_eq_true.1 hp c hc
    rw [(Head.head?_text hh).1] at hc'
    exact Bool.noConfusion hc'

/-- Each half of a fraction ends on a boundary. -/
theorem FractionSpan.halfStop_mem_boundaries {t : Text} {f : FractionSpan} (h : f ∈ fractions t)
    (half : Half) : f.halfStop half ∈ boundaries t := by
  obtain ⟨front, back, rest, rfl, hs, hd⟩ := exists_of_mem_fractions h
  cases half with
  | numerator =>
      have hp := length_mem_boundaries (parted_slash (front ++ f.numerator) back)
      rwa [List.length_append, ← hs] at hp
  | denominator =>
      have hp := length_mem_boundaries (parted_of_slash (front ++ f.numerator) back)
      have hq := add_mem_boundaries hp (length_mem_boundaries_of_readHalf? hd)
      rw [List.append_assoc _ ['/'] back, List.length_append, List.length_append, ← hs] at hq
      exact hq

end PocketCalculator
