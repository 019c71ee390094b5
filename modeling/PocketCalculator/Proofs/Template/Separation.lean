import PocketCalculator.Proofs.Template.Filled
import PocketCalculator.Proofs.Template.Halves

/-! # Where the fractions of a text part

Fractions are found from the left, so what is found behind a place depends on what stands in front
of it: in `□/□/□` the second slash has no numerator left.  At a character that is in no fraction and
in no number the search starts afresh, and the fractions of the text are those in front of it and
those behind it (`fractions_append_cons`).

A minus and a parenthesis are in no fraction, and a blank is in a fraction only as one of its halves
(`FractionSpan.exists_half_of_covers`).

Fractions do not overlap, but the end of one may be the beginning of the next one.  The end of a
half belongs to the fraction of that half all the same (`FractionSpan.findFraction?_halfStop`). -/

namespace PocketCalculator

variable {c : Char} {t front back half rest numerator denominator : Text}

/-! ### Halves -/

theorem isHalf_of_readHalf? (h : readHalf? t = some (half, rest)) : IsHalf half := by
  obtain ⟨-, rfl | rfl | ⟨hne, hrun⟩⟩ := readHalf?_eq_some h
  · exact .blank
  · exact .ans
  · refine .number hne fun c hc => ?_
    rw [hrun] at hc
    exact List.mem_takeWhile_imp hc

theorem IsHalf.isPlainNumeralChar (h : IsHalf half) (hblank : half ≠ [blankSymbol])
    (hans : half ≠ ansName) : half ≠ [] ∧ ∀ c ∈ half, isPlainNumeralChar c = true := by
  cases h with
  | blank => exact absurd rfl hblank
  | ans => exact absurd rfl hans
  | number hne hrun => exact ⟨hne, hrun⟩

/-- A half is read off a text that begins with it, and a number is read as far as it goes. -/
theorem readHalf?_eq_some_iff : readHalf? t = some (half, rest) ↔
    t = half ++ rest ∧ IsHalf half ∧
      ((∀ c ∈ half, isPlainNumeralChar c = true) →
        ∀ c ∈ rest.head?, isPlainNumeralChar c = false) := by
  constructor
  · intro h
    refine ⟨(readHalf?_eq_some h).1, isHalf_of_readHalf? h, fun hplain => ?_⟩
    obtain ⟨rfl, rfl | rfl | ⟨-, hrun⟩⟩ := readHalf?_eq_some h
    · exact absurd (hplain _ List.mem_cons_self) (by decide)
    · exact absurd (hplain _ List.mem_cons_self) (by decide)
    · have hrest : rest = (half ++ rest).dropWhile isPlainNumeralChar := by
        have hall := @List.takeWhile_append_dropWhile _ isPlainNumeralChar (half ++ rest)
        rw [← hrun] at hall
        exact (List.append_cancel_left hall).symm
      rw [hrest]
      exact Text.head?_dropWhile _ _
  · rintro ⟨rfl, hhalf, hstop⟩
    cases hhalf with
    | blank => exact readHalf?_blank rest
    | ans => exact readHalf?_ansName rest
    | number hne hrun =>
        obtain ⟨c, run, rfl⟩ := List.exists_cons_of_ne_nil hne
        have hrun' := fun d hd => hrun d (List.mem_cons_of_mem c hd)
        obtain ⟨htake, hdrop⟩ := Text.takeWhile_append hrun' (hstop hrun)
        rw [List.cons_append, readHalf?_of_numeral (hrun c List.mem_cons_self), htake, hdrop]

theorem readHalf?_append_cons (hc : isPlainNumeralChar c = false)
    (h : readHalf? front = some (half, rest)) (back : Text) :
    readHalf? (front ++ c :: back) = some (half, rest ++ c :: back) := by
  obtain ⟨rfl, hhalf, hstop⟩ := readHalf?_eq_some_iff.1 h
  refine readHalf?_eq_some_iff.2 ⟨List.append_assoc .., hhalf, fun hplain d hd => ?_⟩
  cases rest with
  | nil =>
      cases hd
      exact hc
  | cons e rest => exact hstop hplain d hd

theorem exists_of_readHalf?_append_cons (h : readHalf? (front ++ c :: back) = some (half, rest))
    (hlength : half.length ≤ front.length) :
    ∃ rest', rest = rest' ++ c :: back ∧ readHalf? front = some (half, rest') := by
  obtain ⟨ht, hhalf, hstop⟩ := readHalf?_eq_some_iff.1 h
  obtain ⟨rest', rfl⟩ : half <+: front :=
    List.prefix_of_prefix_length_le ⟨rest, ht.symm⟩ (List.prefix_append _ _) hlength
  rw [List.append_assoc] at ht
  cases List.append_cancel_left ht
  refine ⟨rest', rfl, readHalf?_eq_some_iff.2 ⟨rfl, hhalf, fun hplain d hd => ?_⟩⟩
  refine hstop hplain d ?_
  rw [List.head?_append, Option.mem_def.1 hd]
  rfl

/-! ### Fractions -/

theorem readFraction?_eq_some_iff : readFraction? t = some (numerator, denominator) ↔
    ∃ behind rest, readHalf? t = some (numerator, '/' :: behind) ∧
      readHalf? behind = some (denominator, rest) := by
  constructor
  · intro h
    obtain ⟨⟨n, r⟩, hn, h⟩ := Option.bind_eq_some_iff.1 h
    obtain ⟨behind, hb, h⟩ := Option.bind_eq_some_iff.1 h
    obtain ⟨⟨d, rest⟩, hd, h⟩ := Option.bind_eq_some_iff.1 h
    cases h
    rw [Text.after?_eq_some_iff.1 hb] at hn
    exact ⟨behind, rest, hn, hd⟩
  · rintro ⟨behind, rest, hn, hd⟩
    simp [readFraction?, hn, hd, Text.after?]

theorem FractionSpan.isHalf {f : FractionSpan} (hf : f ∈ fractions t) (h : Half) :
    IsHalf (f.half h) := by
  obtain ⟨-, tail, -, -, hread⟩ := exists_of_mem_fractionsFrom hf
  obtain ⟨behind, rest, hn, hd⟩ := readFraction?_eq_some_iff.1 hread
  cases h with
  | numerator => exact isHalf_of_readHalf? hn
  | denominator => exact isHalf_of_readHalf? hd

theorem readFraction?_append_cons (hc : isPlainNumeralChar c = false)
    (h : readFraction? front = some (numerator, denominator)) (back : Text) :
    readFraction? (front ++ c :: back) = some (numerator, denominator) := by
  obtain ⟨behind, rest, hn, hd⟩ := readFraction?_eq_some_iff.1 h
  exact readFraction?_eq_some_iff.2
    ⟨_, _, readHalf?_append_cons hc hn back, readHalf?_append_cons hc hd back⟩

theorem readFraction?_of_append_cons
    (h : readFraction? (front ++ c :: back) = some (numerator, denominator))
    (hlength : numerator.length + 1 + denominator.length ≤ front.length) :
    readFraction? front = some (numerator, denominator) := by
  obtain ⟨behind, rest, hn, hd⟩ := readFraction?_eq_some_iff.1 h
  obtain ⟨behind', hbehind, hn'⟩ := exists_of_readHalf?_append_cons hn (by omega)
  have hfront := congrArg List.length (readHalf?_eq_some_iff.1 hn').1
  rw [List.length_append] at hfront
  -- the slash stands in front of the character, since there is room for the denominator
  cases behind' with
  | nil =>
      rw [List.length_nil] at hfront
      omega
  | cons d behind' =>
      cases hbehind
      rw [List.length_cons] at hfront
      obtain ⟨rest', -, hd'⟩ := exists_of_readHalf?_append_cons hd (by omega)
      exact readFraction?_eq_some_iff.2 ⟨behind', rest', hn', hd'⟩

namespace FractionSpan

/-- The same fraction, `n` characters further on. -/
def shift (n : Nat) (f : FractionSpan) : FractionSpan :=
  { f with start := f.start + n }

/-- A place lies in a fraction. -/
def Covers (f : FractionSpan) (place : Nat) : Prop :=
  f.start ≤ place ∧ place < f.stop

end FractionSpan

theorem fractionsFrom_add (start n skip : Nat) (t : Text) :
    fractionsFrom (start + n) skip t = (fractionsFrom start skip t).map (.shift n) := by
  have hnext (start : Nat) : start + n + 1 = start + 1 + n := by omega
  fun_induction fractionsFrom start skip t with
  | case1 => rfl
  | case2 start skip c rest ih =>
      rw [fractionsFrom, hnext, ih]
  | case3 start c rest numerator denominator hread f ih =>
      rw [fractionsFrom, hread]
      dsimp only
      rw [hnext, List.map_cons, ← ih]
      rfl
  | case4 start c rest hread ih =>
      rw [fractionsFrom, hread]
      dsimp only
      rw [hnext, ih]

/-- At a character that is in no fraction and in no number, the search for fractions starts afresh,
when it has come as far as that. -/
theorem fractionsFrom_append_cons (hc : isPlainNumeralChar c = false) {start skip : Nat}
    (hskip : skip ≤ front.length)
    (h : ∀ f ∈ fractionsFrom start skip (front ++ c :: back), ¬f.Covers (start + front.length)) :
    fractionsFrom start skip (front ++ c :: back) =
      fractionsFrom start skip front ++ fractionsFrom (start + front.length + 1) 0 back := by
  induction front generalizing start skip with
  | nil =>
      obtain rfl : skip = 0 := Nat.le_zero.1 hskip
      cases hread : readFraction? (c :: back) with
      | none => exact fractionsFrom_of_none hread start
      | some f =>
          have hmem : ⟨start, f.1, f.2⟩ ∈ fractionsFrom start 0 (c :: back) := by
            rw [fractionsFrom, hread]
            exact List.mem_cons_self
          refine absurd ⟨Nat.le_refl start, ?_⟩ (h _ hmem)
          simp only [FractionSpan.stop, FractionSpan.length, List.length_nil]
          omega
  | cons d front ih =>
      have hplace : start + (d :: front).length = start + 1 + front.length := by
        rw [List.length_cons]
        omega
      rw [hplace] at h ⊢
      rw [List.cons_append] at h ⊢
      cases skip with
      | succ skip => exact ih (Nat.le_of_succ_le_succ hskip) h
      | zero =>
          cases hread : readFraction? (d :: (front ++ c :: back)) with
          | none =>
              have hread' : readFraction? (d :: front) = none := by
                rw [Option.eq_none_iff_forall_ne_some]
                intro f hf
                have hlong := readFraction?_append_cons hc hf back
                rw [List.cons_append, hread] at hlong
                cases hlong
              rw [fractionsFrom_of_none hread] at h ⊢
              rw [fractionsFrom_of_none hread']
              exact ih (Nat.zero_le _) h
          | some f =>
              obtain ⟨numerator, denominator⟩ := f
              rw [fractionsFrom, hread] at h ⊢
              dsimp only at h ⊢
              -- the fraction ends in front of the character
              have hstop : numerator.length + 1 + denominator.length ≤ (d :: front).length := by
                have hnot := h _ List.mem_cons_self
                simp only [FractionSpan.Covers, FractionSpan.stop, FractionSpan.length] at hnot
                rw [List.length_cons]
                omega
              rw [fractionsFrom, readFraction?_of_append_cons hread hstop, List.cons_append]
              congr 1
              refine ih ?_ fun g hg => h g (List.mem_cons_of_mem _ hg)
              rw [List.length_cons] at hstop
              simp only [FractionSpan.length]
              omega

/-- The fractions of a text part at a character that is in no fraction and in no number. -/
theorem fractions_append_cons (hc : isPlainNumeralChar c = false)
    (h : ∀ f ∈ fractions (front ++ c :: back), ¬f.Covers front.length) :
    fractions (front ++ c :: back) =
      fractions front ++ (fractions back).map (.shift (front.length + 1)) := by
  rw [fractions, fractionsFrom_append_cons hc (Nat.zero_le _) (by simpa [fractions] using h),
    fractions, fractions, ← fractionsFrom_add, Nat.zero_add, Nat.zero_add]

/-! ### What is in a fraction -/

theorem mem_of_append_cons_eq {l r : Text} (h : front ++ c :: back = l ++ r)
    (hlength : front.length < l.length) : c ∈ l := by
  have hc : (front ++ c :: back)[front.length]? = some c := by simp
  rw [h, List.getElem?_append_left hlength] at hc
  exact List.mem_of_getElem? hc

theorem FractionSpan.half_prefix_drop {f : FractionSpan} (hf : f ∈ fractions t) (h : Half) :
    f.half h <+: t.drop (f.halfStart h) := by
  obtain ⟨front, back, rest, rfl, hs, hd⟩ := exists_of_mem_fractions hf
  cases h with
  | numerator =>
      rw [halfStart, hs, List.append_assoc, List.drop_left]
      exact List.prefix_append _ _
  | denominator =>
      have hlength : f.halfStart .denominator = (front ++ f.numerator ++ ['/']).length := by
        simp [halfStart, hs, Nat.add_assoc]
      rw [hlength, List.append_cons _ '/' back, List.drop_left, (readHalf?_eq_some hd).1]
      exact List.prefix_append _ _

/-- What is in a fraction, its slash apart, is in one of its halves. -/
theorem FractionSpan.exists_half_of_covers {f : FractionSpan}
    (hf : f ∈ fractions (front ++ c :: back)) (h : f.Covers front.length) (hc : c ≠ '/') :
    ∃ half, c ∈ f.half half ∧ f.halfStart half ≤ front.length ∧
      front.length < f.halfStop half := by
  have inHalf {half : Half} (hs : f.halfStart half ≤ front.length)
      (he : front.length < f.halfStop half) :
      ∃ half, c ∈ f.half half ∧ f.halfStart half ≤ front.length ∧
        front.length < f.halfStop half := by
    obtain ⟨rest, hrest⟩ := half_prefix_drop hf half
    rw [List.drop_append_of_le_length hs] at hrest
    refine ⟨half, mem_of_append_cons_eq hrest.symm ?_, hs, he⟩
    rw [List.length_drop]
    rw [halfStop] at he
    omega
  by_cases hn : front.length < f.halfStop .numerator
  · exact @inHalf .numerator h.1 hn
  by_cases hd : f.halfStart .denominator ≤ front.length
  · refine inHalf hd ?_
    have hstop := h.2
    simp only [FractionSpan.stop, FractionSpan.length, halfStop, halfStart, half] at hstop ⊢
    omega
  · -- between the halves there is the slash
    obtain ⟨front', back', rest, ht, hs, -⟩ := exists_of_mem_fractions hf
    simp only [halfStop, halfStart, half] at hn hd
    have hlength : front.length = (front' ++ f.numerator).length := by
      rw [List.length_append]
      omega
    obtain ⟨-, hcons⟩ := List.append_inj ht hlength
    exact absurd (List.cons.inj hcons).1 hc

theorem FractionSpan.not_covers (hslash : c ≠ '/') (hplain : isPlainNumeralChar c = false)
    (hblank : c ≠ blankSymbol) (hans : c ∉ ansName) :
    ∀ f ∈ fractions (front ++ c :: back), ¬f.Covers front.length := by
  intro f hf hcovers
  obtain ⟨h, hmem, -⟩ := exists_half_of_covers hf hcovers hslash
  have hhalf := isHalf hf h
  generalize f.half h = half at hmem hhalf
  cases hhalf with
  | blank => exact hblank (List.mem_singleton.1 hmem)
  | ans => exact hans hmem
  | number hne hrun =>
      rw [hrun c hmem] at hplain
      cases hplain

theorem FractionSpan.exists_blank_half_of_covers {f : FractionSpan}
    (hf : f ∈ fractions (front ++ blankSymbol :: back)) (h : f.Covers front.length) :
    ∃ half, f.half half = [blankSymbol] ∧ f.halfStart half = front.length := by
  obtain ⟨half, hmem, hs, he⟩ := exists_half_of_covers hf h (by decide)
  have hhalf : f.half half = [blankSymbol] := by
    have hhalf := isHalf hf half
    generalize f.half half = u at hmem hhalf
    cases hhalf with
    | blank => rfl
    | ans => exact absurd hmem (by decide)
    | number hne hrun => exact absurd (hrun _ hmem) (by decide)
  refine ⟨half, hhalf, ?_⟩
  rw [halfStop, hhalf, List.length_singleton] at he
  omega

/-! ### The order of fractions -/

theorem le_start_of_mem_fractionsFrom {start skip : Nat} {t : Text} {f : FractionSpan}
    (h : f ∈ fractionsFrom start skip t) : start + skip ≤ f.start := by
  fun_induction fractionsFrom start skip t with
  | case1 => exact absurd h List.not_mem_nil
  | case2 start skip c rest ih =>
      have := ih h
      omega
  | case3 start c rest numerator denominator hread g ih =>
      rcases List.mem_cons.1 h with rfl | h
      · exact Nat.le_refl start
      · have := ih h
        omega
  | case4 start c rest hread ih =>
      have := ih h
      omega

theorem pairwise_fractionsFrom (start skip : Nat) (t : Text) :
    (fractionsFrom start skip t).Pairwise (fun f g => f.stop ≤ g.start) := by
  fun_induction fractionsFrom start skip t with
  | case1 => exact .nil
  | case2 start skip c rest ih => exact ih
  | case3 start c rest numerator denominator hread g ih =>
      refine List.pairwise_cons.2 ⟨fun f hf => ?_, ih⟩
      have := le_start_of_mem_fractionsFrom hf
      have : g.stop = start + g.length := rfl
      have : g.length = numerator.length + 1 + denominator.length := rfl
      omega
  | case4 start c rest hread ih => exact ih

theorem pairwise_fractions (t : Text) :
    (fractions t).Pairwise (fun f g => f.stop ≤ g.start) :=
  pairwise_fractionsFrom 0 0 t

namespace FractionSpan

variable {f : FractionSpan}

theorem start_lt_halfStop (hf : f ∈ fractions t) (h : Half) : f.start < f.halfStop h := by
  have hn := List.length_pos_iff.2 (isHalf hf .numerator).ne_nil
  cases h with
  | numerator =>
      simp only [halfStop, halfStart]
      omega
  | denominator =>
      simp only [halfStop, halfStart]
      omega

theorem halfStop_le_stop (f : FractionSpan) (h : Half) : f.halfStop h ≤ f.stop := by
  cases h with
  | numerator =>
      simp only [halfStop, halfStart, stop, length, half]
      omega
  | denominator =>
      simp only [halfStop, halfStart, stop, length, half]
      omega

/-- At the end of a half of a fraction, this fraction is found again: those in front of it end
before its first half does. -/
theorem findFraction?_halfStop (hf : f ∈ fractions t) (h : Half) :
    findFraction? t (some (f.halfStop h)) = some f := by
  obtain ⟨l, r, hlr⟩ := List.append_of_mem hf
  have hlt := start_lt_halfStop hf h
  have hle := halfStop_le_stop f h
  have hnone : l.find? (·.touches (f.halfStop h)) = none := by
    rw [List.find?_eq_none]
    intro g hg
    have hsorted := pairwise_fractions t
    rw [hlr, List.pairwise_append] at hsorted
    have := hsorted.2.2 g hg f List.mem_cons_self
    simp only [touches, Bool.and_eq_true, decide_eq_true_eq, not_and]
    omega
  have htouches : f.touches (f.halfStop h) = true := by
    simp only [touches, Bool.and_eq_true, decide_eq_true_eq]
    omega
  rw [findFraction?, Option.bind_some, hlr, List.find?_append, hnone, List.find?_cons, htouches]
  rfl

end FractionSpan

end PocketCalculator
