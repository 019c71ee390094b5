import PocketCalculator.Template.Filled
import PocketCalculator.Proofs.Number.Reading
import PocketCalculator.Proofs.Unit.Keyed

/-! # Templates in front of the cursor

A filled template is recognised from its end, and what is recognised is the template with operands
in the place of its blanks: `Fills` lists the forms, and `Filled.exists_of_before?` says that there
are no others; `Filled.exists_inner_of_before?` adds that the empty form is not among them.  Each of
them, and each empty template, begins where a keyed text may be cut (`Fills.opens`,
`Template.opens_text`), so a deletion that takes a template out of a keyed text takes no head apart.
-/

namespace PocketCalculator

/-! ### Forms -/

/-- The operands that fill a template other than a fraction. -/
inductive FillsBlank : Text → Prop where
  | ans : FillsBlank ansName
  | number {run : Text} (hne : run ≠ []) (hrun : ∀ c ∈ run, isPlainNumeralChar c = true) :
      FillsBlank run
  | negative {run : Text} (hne : run ≠ []) (hrun : ∀ c ∈ run, isPlainNumeralChar c = true) :
      FillsBlank ('-' :: run)

/-- The halves of a fraction, empty or not. -/
inductive IsHalf : Text → Prop where
  | blank : IsHalf [blankSymbol]
  | ans : IsHalf ansName
  | number {run : Text} (hne : run ≠ []) (hrun : ∀ c ∈ run, isPlainNumeralChar c = true) :
      IsHalf run

/-- The texts that are a template with its blanks filled. -/
inductive Fills : Template → Text → Prop where
  | circular (f : CircularFunction) {argument : Text} (hne : argument ≠ [])
      (hparens : ∀ c ∈ argument, c ≠ '(' ∧ c ≠ ')') :
      Fills (.circular f) (f.text ++ ['('] ++ argument ++ [')'])
  | root {o : Text} (ho : FillsBlank o) : Fills .root ([rootSymbol] ++ o)
  | marker (m : Marker) {o : Text} (ho : FillsBlank o) : Fills (.marker m) (m.text ++ o)
  | square {o : Text} (ho : FillsBlank o) : Fills .square (o ++ Suffix.square.text)
  | cube {o : Text} (ho : FillsBlank o) : Fills .cube (o ++ Suffix.cube.text)
  | reciprocal {o : Text} (ho : FillsBlank o) : Fills .reciprocal (o ++ Suffix.reciprocal.text)
  | factorial {o : Text} (ho : FillsBlank o) : Fills .factorial (o ++ Suffix.factorial.text)
  | fraction {numerator denominator : Text} (hn : IsHalf numerator) (hd : IsHalf denominator) :
      Fills .fraction (numerator ++ ['/'] ++ denominator)

theorem FillsBlank.blank_not_mem {o : Text} (h : FillsBlank o) : blankSymbol ∉ o := by
  have hplain {run : Text} (hrun : ∀ c ∈ run, isPlainNumeralChar c = true) : blankSymbol ∉ run :=
    fun hb => absurd (hrun _ hb) (by decide)
  cases h with
  | ans => decide
  | number hne hrun => exact hplain hrun
  | negative hne hrun =>
      rw [List.mem_cons, not_or]
      exact ⟨by decide, hplain hrun⟩

theorem FillsBlank.ne_nil {o : Text} (h : FillsBlank o) : o ≠ [] := by
  cases h with
  | ans => exact List.cons_ne_nil _ _
  | number hne hrun => exact hne
  | negative hne hrun => exact List.cons_ne_nil _ _

theorem IsHalf.blank_not_mem {half : Text} (h : IsHalf half) (hb : half ≠ [blankSymbol]) :
    blankSymbol ∉ half := by
  cases h with
  | blank => exact absurd rfl hb
  | ans => exact FillsBlank.ans.blank_not_mem
  | number hne hrun => exact (FillsBlank.number hne hrun).blank_not_mem

theorem IsHalf.ne_nil {half : Text} (h : IsHalf half) : half ≠ [] := by
  cases h with
  | blank => exact List.cons_ne_nil _ _
  | ans => exact List.cons_ne_nil _ _
  | number hne hrun => exact hne

theorem Fills.ne_nil {template : Template} {back : Text} (h : Fills template back) : back ≠ [] := by
  cases h with
  | circular => exact List.append_ne_nil_of_right_ne_nil _ (List.cons_ne_nil _ _)
  | root | marker =>
      rename_i ho
      exact List.append_ne_nil_of_right_ne_nil _ ho.ne_nil
  | square ho | cube ho | reciprocal ho | factorial ho =>
      exact List.append_ne_nil_of_left_ne_nil ho.ne_nil _
  | fraction =>
      exact List.append_ne_nil_of_left_ne_nil
        (List.append_ne_nil_of_right_ne_nil _ (List.cons_ne_nil _ _)) _

theorem Fills.ne_text {template : Template} {back : Text} (h : Fills template back)
    (hf : template ≠ .fraction) : back ≠ template.text := by
  -- the empty form has a blank, and the operand has none
  have hblank {o u v : Text} (ho : FillsBlank o) (hu : blankSymbol ∉ u)
      (hv : blankSymbol ∈ v) : u ++ o ≠ v ∧ o ++ u ≠ v := by
    have hnot := ho.blank_not_mem
    exact ⟨by rintro rfl; simp_all, by rintro rfl; simp_all⟩
  cases h with
  | circular f hne hparens =>
      intro he
      have hlength := congrArg List.length he
      have hpos := List.length_pos_iff.2 hne
      simp only [Template.text, List.length_append, List.length_cons, List.length_nil] at hlength
      omega
  | root ho => exact (hblank ho (by decide) (by decide)).1
  | marker m ho => exact (hblank ho (by cases m <;> decide) (by cases m <;> decide)).1
  | square ho => exact (hblank ho (by decide) (by decide)).2
  | cube ho => exact (hblank ho (by decide) (by decide)).2
  | reciprocal ho => exact (hblank ho (by decide) (by decide)).2
  | factorial ho => exact (hblank ho (by decide) (by decide)).2
  | fraction hn hd => exact absurd rfl hf

/-! ### Reading backwards -/

/-- The reversed text begins with the reversed `back`, which has `n` characters. -/
def EndsIn (r : Text) (n : Nat) (back : Text) : Prop :=
  ∃ rest, r = back.reverse ++ rest ∧ n = back.length

namespace EndsIn

theorem of_after? {r back rest : Text} (h : Text.after? back.reverse r = some rest) :
    EndsIn r back.length back :=
  ⟨rest, Text.after?_eq_some_iff.1 h, rfl⟩

theorem drop_of_after? {r back rest : Text} (h : Text.after? back.reverse r = some rest) :
    r.drop back.length = rest := by
  rw [Text.after?_eq_some_iff.1 h, ← List.length_reverse, List.drop_left]

theorem of_takeWhile (p : Char → Bool) (r : Text) :
    EndsIn r (r.takeWhile p).length (r.takeWhile p).reverse :=
  ⟨r.dropWhile p, by simp, by simp⟩

/-- What ends in front of the end. -/
theorem append {r : Text} {n m : Nat} {front back : Text} (hb : EndsIn r n back)
    (hf : EndsIn (r.drop n) m front) : EndsIn r (n + m) (front ++ back) := by
  obtain ⟨rest, rfl, rfl⟩ := hb
  obtain ⟨rest', hr, rfl⟩ := hf
  rw [← List.length_reverse, List.drop_left] at hr
  refine ⟨rest', ?_, ?_⟩
  · rw [hr, List.reverse_append, List.append_assoc]
  · rw [List.length_append, Nat.add_comm]

end EndsIn

namespace Filled

theorem exists_of_operandLength? {r : Text} {n : Nat} (h : operandLength? r = some n) :
    ∃ o, FillsBlank o ∧ EndsIn r n o := by
  unfold operandLength? at h
  split at h
  · rename_i rest hans
    cases h
    exact ⟨ansName, .ans, EndsIn.of_after? hans⟩
  · dsimp only at h
    split at h
    · cases h
    · rename_i hne
      have hrun : ∀ c ∈ (r.takeWhile isPlainNumeralChar).reverse, isPlainNumeralChar c = true :=
        fun c hc => List.mem_takeWhile_imp (List.mem_reverse.1 hc)
      have hne' : (r.takeWhile isPlainNumeralChar).reverse ≠ [] := by simpa using hne
      have hnumber := EndsIn.of_takeWhile isPlainNumeralChar r
      split at h
      · rename_i before hminus
        split at h
        · cases h
          exact ⟨_, .number hne' hrun, hnumber⟩
        · cases h
          refine ⟨_, .negative hne' hrun, before, ?_, by simp⟩
          have hr := @List.takeWhile_append_dropWhile _ isPlainNumeralChar r
          rw [hminus] at hr
          simpa using hr.symm
      · cases h
      · cases h
        exact ⟨_, .number hne' hrun, hnumber⟩

theorem exists_of_markedLength? {symbol r : Text} {n : Nat} (h : markedLength? symbol r = some n) :
    ∃ o, FillsBlank o ∧ EndsIn r n (symbol ++ o) := by
  obtain ⟨m, hm, h⟩ := Option.bind_eq_some_iff.1 h
  obtain ⟨rest, hs, h⟩ := Option.bind_eq_some_iff.1 h
  cases h
  obtain ⟨o, ho, hend⟩ := exists_of_operandLength? hm
  exact ⟨o, ho, hend.append (EndsIn.of_after? hs)⟩

theorem exists_of_suffixedLength? {s : Suffix} {r : Text} {n : Nat}
    (h : suffixedLength? s r = some n) : ∃ o, FillsBlank o ∧ EndsIn r n (o ++ s.text) := by
  obtain ⟨rest, hs, h⟩ := Option.bind_eq_some_iff.1 h
  obtain ⟨m, hm, h⟩ := Option.bind_eq_some_iff.1 h
  cases h
  obtain ⟨o, ho, hend⟩ := exists_of_operandLength? hm
  rw [← EndsIn.drop_of_after? hs] at hend
  refine ⟨o, ho, ?_⟩
  rw [Nat.add_comm]
  exact (EndsIn.of_after? hs).append hend

theorem exists_of_halfLength? {r : Text} {n : Nat} (h : halfLength? r = some n) :
    ∃ half, IsHalf half ∧ EndsIn r n half := by
  unfold halfLength? at h
  split at h
  · rename_i rest hblank
    cases h
    exact ⟨_, .blank, @EndsIn.of_after? r [blankSymbol] rest hblank⟩
  · split at h
    · rename_i rest hans
      cases h
      exact ⟨_, .ans, EndsIn.of_after? hans⟩
    · split at h
      · cases h
      · rename_i hrun
        cases h
        refine ⟨_, .number (by simpa using hrun) ?_, EndsIn.of_takeWhile isPlainNumeralChar r⟩
        exact fun c hc => List.mem_takeWhile_imp (List.mem_reverse.1 hc)

theorem fills_of_fractionLength? {r : Text} {n : Nat} (h : fractionLength? r = some n) :
    ∃ back, Fills .fraction back ∧ EndsIn r n back := by
  obtain ⟨d, hd, h⟩ := Option.bind_eq_some_iff.1 h
  obtain ⟨rest, hs, h⟩ := Option.bind_eq_some_iff.1 h
  obtain ⟨m, hm, h⟩ := Option.bind_eq_some_iff.1 h
  split at h
  · cases h
  · cases h
    obtain ⟨denominator, hdenominator, hdend⟩ := exists_of_halfLength? hd
    obtain ⟨numerator, hnumerator, hnend⟩ := exists_of_halfLength? hm
    refine ⟨_, .fraction hnumerator hdenominator, ?_⟩
    have hslash := hdend.append (@EndsIn.of_after? _ ['/'] rest hs)
    rw [← @EndsIn.drop_of_after? _ ['/'] rest hs, List.drop_drop] at hnend
    have hall := hslash.append hnend
    rwa [← List.append_assoc] at hall

theorem fills_of_circular? {r : Text} {f : CircularFunction} {n : Nat}
    (h : circular? r = some (f, n)) : ∃ back, Fills (.circular f) back ∧ EndsIn r n back := by
  obtain ⟨inner, hclosing, h⟩ := Option.bind_eq_some_iff.1 h
  dsimp only at h
  split at h
  · cases h
  rename_i hne
  obtain ⟨before, hopening, h⟩ := Option.bind_eq_some_iff.1 h
  obtain ⟨g, hg, h⟩ := Option.bind_eq_some_iff.1 h
  cases h
  have hstarts := List.find?_some hg
  obtain ⟨rest, hname⟩ := Text.startsWith_iff.1 hstarts
  generalize hargument : inner.takeWhile (fun c => c != '(' && c != ')') = argument at *
  have hparens : ∀ c ∈ argument.reverse, c ≠ '(' ∧ c ≠ ')' := by
    intro c hc
    rw [List.mem_reverse, ← hargument] at hc
    simpa using List.mem_takeWhile_imp hc
  refine ⟨_, .circular f (by simpa using hne) hparens, rest, ?_, by simp; omega⟩
  have hinner := @List.takeWhile_append_dropWhile _ (fun c => c != '(' && c != ')') inner
  rw [hargument] at hinner
  rw [← hinner, List.drop_left] at hopening
  rw [Text.after?_eq_some_iff.1 hopening, ← hname] at hinner
  rw [Text.after?_eq_some_iff.1 hclosing, ← hinner]
  simp

theorem fills_of_markedLength? {template : Template} {symbol r : Text} {n : Nat}
    (hfills : ∀ o, FillsBlank o → Fills template (symbol ++ o))
    (h : markedLength? symbol r = some n) : ∃ back, Fills template back ∧ EndsIn r n back := by
  obtain ⟨o, ho, hend⟩ := exists_of_markedLength? h
  exact ⟨_, hfills o ho, hend⟩

theorem fills_of_suffixedLength? {template : Template} {s : Suffix} {r : Text} {n : Nat}
    (hfills : ∀ o, FillsBlank o → Fills template (o ++ s.text))
    (h : suffixedLength? s r = some n) : ∃ back, Fills template back ∧ EndsIn r n back := by
  obtain ⟨o, ho, hend⟩ := exists_of_suffixedLength? h
  exact ⟨_, hfills o ho, hend⟩

theorem fills_of_mem_candidates {r : Text} {template : Template} {n : Nat}
    (h : some (template, n) ∈ candidates r) : ∃ back, Fills template back ∧ EndsIn r n back := by
  simp only [candidates, List.mem_cons, List.not_mem_nil, or_false, eq_comm (a := some _),
    Option.map_eq_some_iff, Prod.mk.injEq] at h
  rcases h with ⟨⟨f, m⟩, h, rfl, rfl⟩ | ⟨m, h, rfl, rfl⟩ | ⟨m, h, rfl, rfl⟩ | ⟨m, h, rfl, rfl⟩ |
    ⟨m, h, rfl, rfl⟩ | ⟨m, h, rfl, rfl⟩ | ⟨m, h, rfl, rfl⟩ | ⟨m, h, rfl, rfl⟩ |
    ⟨m, h, rfl, rfl⟩ | ⟨m, h, rfl, rfl⟩ | ⟨m, h, rfl, rfl⟩
  · exact fills_of_circular? h
  · exact fills_of_markedLength? (fun _ => .root) h
  · exact fills_of_suffixedLength? (fun _ => .square) h
  · exact fills_of_suffixedLength? (fun _ => .cube) h
  · exact fills_of_suffixedLength? (fun _ => .reciprocal) h
  · exact fills_of_suffixedLength? (fun _ => .factorial) h
  · exact fills_of_markedLength? (fun _ => .marker .log) h
  · exact fills_of_markedLength? (fun _ => .marker .ln) h
  · exact fills_of_markedLength? (fun _ => .marker .tenPower) h
  · exact fills_of_markedLength? (fun _ => .marker .exp) h
  · exact fills_of_fractionLength? h

theorem ne_text_of_fractionLength? {r back : Text} {n : Nat} (h : fractionLength? r = some n)
    (hend : EndsIn r n back) : back ≠ Template.fraction.text := by
  obtain ⟨d, -, h⟩ := Option.bind_eq_some_iff.1 h
  obtain ⟨behind, -, h⟩ := Option.bind_eq_some_iff.1 h
  obtain ⟨m, -, h⟩ := Option.bind_eq_some_iff.1 h
  split at h
  · cases h
  · rename_i hne
    cases h
    obtain ⟨rest, hr, hlength⟩ := hend
    rw [hlength, hr, ← List.length_reverse, List.take_left] at hne
    rintro rfl
    exact hne rfl

/-- The template in front of the end, one line feed apart, stands there with its blanks filled. -/
theorem exists_inner_of_before? {t : Text} {start : Nat} {template : Template}
    (h : before? t = some (start, template)) : ∃ front back,
      withoutFinalBreak t = front ++ back ∧ start = front.length ∧ Fills template back ∧
        back ≠ template.text := by
  obtain ⟨⟨template', n⟩, hfind, h⟩ := Option.map_eq_some_iff.1 h
  cases h
  obtain ⟨candidate, hmem, rfl⟩ := List.exists_of_findSome?_eq_some hfind
  obtain ⟨back, hfills, hend⟩ := fills_of_mem_candidates hmem
  have hne : back ≠ template.text := by
    by_cases hf : template = .fraction
    · subst hf
      refine ne_text_of_fractionLength? ?_ hend
      simpa [candidates, eq_comm (a := some _), Option.map_eq_some_iff] using hmem
    · exact hfills.ne_text hf
  obtain ⟨rest, hr, rfl⟩ := hend
  have ht : withoutFinalBreak t = rest.reverse ++ back := by
    rw [← List.reverse_reverse (withoutFinalBreak t), hr, List.reverse_append, List.reverse_reverse]
  refine ⟨rest.reverse, back, ht, ?_, hfills, hne⟩
  rw [ht, List.length_append, Nat.add_sub_cancel]

/-- The template in front of the end stands there with its blanks filled. -/
theorem exists_of_before? {t : Text} {start : Nat} {template : Template}
    (hbreak : withoutFinalBreak t = t) (h : before? t = some (start, template)) :
    ∃ front back, t = front ++ back ∧ start = front.length ∧ Fills template back := by
  obtain ⟨front, back, ht, hstart, hfills, -⟩ := exists_inner_of_before? h
  exact ⟨front, back, hbreak ▸ ht, hstart, hfills⟩

end Filled

theorem exists_inner_of_emptyTemplateBefore? {t : Text} {start : Nat}
    (h : emptyTemplateBefore? t = some start) : ∃ front, ∃ template : Template,
      withoutFinalBreak t = front ++ template.text ∧ start = front.length := by
  obtain ⟨n, hn, rfl⟩ := Option.map_eq_some_iff.1 h
  obtain ⟨u, hu, rfl⟩ := List.mem_map.1 (List.max?_mem hn)
  obtain ⟨hmem, hends⟩ := List.mem_filter.1 hu
  obtain ⟨template, -, rfl⟩ := List.mem_map.1 hmem
  obtain ⟨front, hfront⟩ := Text.endsWith_iff.1 hends
  refine ⟨front, template, hfront.symm, ?_⟩
  rw [← hfront, List.length_append, Nat.add_sub_cancel]

theorem exists_of_emptyTemplateBefore? {t : Text} {start : Nat} (hbreak : withoutFinalBreak t = t)
    (h : emptyTemplateBefore? t = some start) :
    ∃ front, ∃ template : Template, t = front ++ template.text ∧ start = front.length := by
  obtain ⟨front, template, ht, hstart⟩ := exists_inner_of_emptyTemplateBefore? h
  exact ⟨front, template, hbreak ▸ ht, hstart⟩

theorem isPrefix_withoutFinalBreak (t : Text) : withoutFinalBreak t <+: t := by
  rw [withoutFinalBreak]
  split
  · exact List.dropLast_prefix t
  · exact List.prefix_rfl

/-! ### Where templates begin -/

theorem opens_plain {run t : Text} (hne : run ≠ [])
    (hrun : ∀ c ∈ run, isPlainNumeralChar c = true) (ht : '^' ∉ t) : Opens (run ++ t) :=
  opens_run hne (fun c hc => isNumeralChar_of_plain (hrun c hc)) ht

theorem FillsBlank.opens {o t : Text} (h : FillsBlank o) (ht : '^' ∉ t) : Opens (o ++ t) := by
  cases h with
  | ans => exact opens_ansName t
  | number hne hrun => exact opens_plain hne hrun ht
  | negative hne hrun => exact opens_cons (by decide) _

theorem IsHalf.opens {half t : Text} (h : IsHalf half) (ht : '^' ∉ t) : Opens (half ++ t) := by
  cases h with
  | blank => exact opens_cons (by decide) _
  | ans => exact opens_ansName t
  | number hne hrun => exact opens_plain hne hrun ht

theorem IsHalf.power_not_mem {half : Text} (h : IsHalf half) : '^' ∉ half := by
  cases h with
  | blank => decide
  | ans => decide
  | number hne hrun => exact fun hm => absurd (hrun _ hm) (by decide)

theorem opens_marker (m : Marker) (t : Text) : Opens (m.text ++ t) := by
  cases m with
  | log => exact opens_cons (by decide) _
  | ln => exact opens_cons (by decide) _
  | tenPower => exact opens_cons (by decide) _
  | exp => exact opens_cons (by decide) _

/-- No head lies across the beginning of a filled template. -/
theorem Fills.opens {template : Template} {back : Text} (h : Fills template back) : Opens back := by
  cases h with
  | circular f hne hparens =>
      rw [List.append_assoc, List.append_assoc]
      exact opens_circular f _
  | root ho => exact opens_cons (by decide) _
  | marker m ho => exact opens_marker m _
  | square ho => exact ho.opens (by decide)
  | cube ho => exact ho.opens (by decide)
  | reciprocal ho => exact ho.opens (by decide)
  | factorial ho => exact ho.opens (by decide)
  | fraction hn hd =>
      rw [List.append_assoc]
      refine hn.opens fun hm => ?_
      rcases List.mem_append.1 hm with hm | hm
      · exact absurd hm (by decide)
      · exact hd.power_not_mem hm

theorem Template.mem_all (template : Template) : template ∈ all := by
  rcases template with _ | _ | _ | _ | _ | _ | ⟨_ | _ | _ | _⟩ | ⟨_ | _ | _, _ | _⟩ <;> decide

theorem Template.text_ne_nil (template : Template) : template.text ≠ [] := by
  have key : ∀ template ∈ Template.all, template.text ≠ [] := by decide
  exact key template template.mem_all

/-- No head lies across the beginning of an empty template. -/
theorem Template.opens_text (template : Template) : Opens template.text := by
  cases template with
  | marker m => exact opens_marker m _
  | circular f => exact opens_circular f _
  | _ => exact opens_cons (by decide) _

end PocketCalculator
