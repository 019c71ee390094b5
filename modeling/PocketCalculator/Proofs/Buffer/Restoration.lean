import PocketCalculator.Proofs.Buffer.Atomic
import PocketCalculator.Proofs.Buffer.Values
import PocketCalculator.Proofs.Template.Completion

/-! # Deleting a value that has filled a slot

A deletion right behind a value that has filled a blank looks for the template again, now from its
end.  It finds the blank behind a mark and between the parentheses of a circular function.  In front
of a suffix it may find something else: the blank does not come back behind a value, and what stands
in front of the blank may be the beginning of another template that the value completes.
`Detached` says that neither is the case, `Recognised` lists what a deletion may find in front of
the cursor, and `Buffer.delete_insert` says that the text is restored in front of a suffix exactly
where the blank was detached, and everywhere else in any case. -/

namespace PocketCalculator

variable {front back v x : Text} {template : Template} {mark : Text}

/-! ### Detached blanks -/

namespace Buffer

/-- Behind `front`, a blank that the value `v` has filled comes back: no value stands in front of
it, no mark with a sign, and no number with the bar of a fraction. -/
structure Detached (front v : Text) : Prop where
  not_value : endsWithValue front = false
  not_signed : v ≠ ansName → ∀ template mark, Template.mark? template = some mark →
    ¬mark ++ ['-'] <:+ front
  not_denominator : ∀ half, IsHalf half → half ≠ [blankSymbol] → ¬half ++ ['/'] <:+ front

theorem detached_of_getLast? {c : Char} (hc : front.getLast? = some c)
    (hvalue : endsValue c = false) (hother : c ∉ ['-', '/', '¹', 's']) (v : Text) :
    Detached front v := by
  have hnot {t : Text} {d : Char} (ht : t ++ [d] <:+ front) : d = c := by
    obtain ⟨y, rfl⟩ := ht
    rw [← List.append_assoc, List.getLast?_concat] at hc
    exact Option.some.inj hc
  refine ⟨?_, fun _ template mark _ hs => ?_, fun half _ _ hs => ?_⟩
  · rw [endsWithValue_of_getLast? hc, hvalue]
    · rintro rfl
      exact hother (by decide)
    · rintro rfl
      exact hother (by decide)
  · rw [← hnot hs] at hother
    exact hother (by decide)
  · rw [← hnot hs] at hother
    exact hother (by decide)

theorem detached_mark (h : template.mark? = some mark) (x v : Text) : Detached (x ++ mark) v := by
  have key : Template.markEnds.all
      (fun c => endsValue c = false ∧ c ∉ ['-', '/', '¹', 's']) = true := by decide
  obtain ⟨w, c, hc, rfl⟩ := Template.exists_of_mark? h
  obtain ⟨hvalue, hother⟩ := Template.forall_markEnds key hc
  refine detached_of_getLast? ?_ hvalue hother v
  rw [← List.append_assoc, List.getLast?_concat]

theorem detached_bar (x v : Text) : Detached (x ++ [blankSymbol] ++ ['/']) v := by
  have hlast : (x ++ [blankSymbol] ++ ['/']).getLast? = some '/' := List.getLast?_concat
  refine ⟨endsWithValue_of_getLast? hlast (by decide) (by decide), ?_, ?_⟩
  · rintro - template mark - ⟨y, hy⟩
    rw [← hy, ← List.append_assoc, List.getLast?_concat] at hlast
    cases hlast
  · rintro half hhalf hb ⟨y, hy⟩
    rw [← List.append_assoc] at hy
    have hblank := congrArg List.getLast? (List.append_inj' hy rfl).1
    rw [List.getLast?_append_of_ne_nil y hhalf.ne_nil, List.getLast?_concat] at hblank
    exact hhalf.blank_not_mem hb (List.mem_of_getLast? hblank)

/-- Of the templates that may be recognised behind a value, only that of a detached blank gives it
back. -/
theorem append_text_eq_iff (h : Recognised front v x template) :
    x ++ template.text = front ++ [blankSymbol] ↔ Detached front v := by
  cases h with
  | marked hmark h =>
      rw [h, Template.text_of_mark? hmark, List.append_assoc]
      exact iff_of_true rfl (detached_mark hmark x v)
  | signed hmark hv h =>
      refine iff_of_false (fun he => ?_) fun hd => hd.not_signed hv _ _ hmark ?_
      · have hlength := congrArg List.length he
        rw [h, Template.text_of_mark? hmark] at hlength
        simp only [List.length_append, List.length_singleton] at hlength
        omega
      · rw [h, List.append_assoc]
        exact List.suffix_append x _
  | @denominator numerator hn h =>
      by_cases hb : numerator = [blankSymbol]
      · subst hb
        have htext : x ++ Template.fraction.text = front ++ [blankSymbol] := by
          rw [h, List.append_assoc, List.append_assoc]
          rfl
        exact iff_of_true htext (h ▸ detached_bar x v)
      · refine iff_of_false (fun he => ?_) fun hd => hd.not_denominator _ hn hb ?_
        · rw [h, List.append_assoc, List.append_assoc] at he
          have hfraction : [blankSymbol] ++ ['/', blankSymbol] = numerator ++ ['/', blankSymbol] :=
            List.append_cancel_left he
          exact hb (List.append_cancel_right hfraction).symm
        · rw [h, List.append_assoc]
          exact List.suffix_append x _
  | lengthened hc hplain htext hd =>
      refine iff_of_false (fun he => ?_) fun hdetached => ?_
      · rw [htext, ← List.append_assoc, ← List.append_assoc] at he
        rw [← (List.append_inj' he rfl).1, List.getLast?_concat] at hc
        cases hc
        rw [hplain] at hd
        cases hd
      · have hvalue := hdetached.not_value
        rw [endsWithValue, Option.mem_def.1 hc, Option.any_some,
          endsValue_of_plain hplain] at hvalue
        cases hvalue

theorem detached_iff_of_none (hv : IsFilling v) (h : Filled.before? (front ++ v) = none) :
    Detached front v ↔ endsWithValue front = false := by
  refine ⟨(·.not_value), fun hvalue => ⟨hvalue, fun hans template mark hmark hs => ?_,
    fun half hhalf hb hs => ?_⟩⟩
  · obtain ⟨x, rfl⟩ := hs
    have ho : FillsBlank ('-' :: v) := by
      cases hv with
      | ans => exact absurd rfl hans
      | @char c hc => exact .negative (List.cons_ne_nil c []) (List.forall_mem_singleton.2 hc)
    have htext : x ++ mark ++ '-' :: v = x ++ (mark ++ ['-']) ++ v := by simp
    rw [← htext] at h
    refine Filled.before?_ne_none_of_mark hmark ho ?_ h
    rw [htext, hv.withoutFinalBreak]
  · obtain ⟨x, rfl⟩ := hs
    rw [← List.append_assoc] at h
    exact Filled.before?_ne_none_of_bar hhalf hv.isHalf hv.ne_blank (hv.withoutFinalBreak _) h

/-! ### Deletion behind a value -/

theorem TakesUnit.eq_of_before {b : Buffer} {remaining unit : Text} (h : b.TakesUnit remaining unit)
    (hv : IsFilling v) (hk : Keyed front) (hbefore : b.before = front ++ v) :
    remaining = front ∧ unit = v := by
  obtain ⟨l, hl, rfl⟩ := h.exists_units
  have hunits : units v = [v] := by
    have hflat := units_flatten (List.cons_subset.2 ⟨hv.mem_keyUnits, List.nil_subset _⟩)
    rwa [List.flatten_singleton] at hflat
  rw [hbefore, units_append hk hv.keyed, hunits] at hl
  obtain ⟨rfl, hu⟩ := List.append_inj' hl rfl
  exact ⟨flatten_units front, (List.cons.inj hu).1.symm⟩

/-- A deletion behind a value empties a template that is recognised there, and otherwise takes the
value away, with a blank in its place where something behind the cursor needs it. -/
theorem text_delete_of_value {b : Buffer} (hv : IsFilling v) (hk : Keyed front)
    (hbefore : b.before = front ++ v) :
    (∃ x template, Recognised front v x template ∧
        b.delete.text = x ++ template.text ++ b.after) ∨
      Filled.before? (front ++ v) = none ∧ (b.after ≠ [] →
        b.delete.text = if closer? b.after ≠ none ∧ endsWithValue front = false then
          front ++ [blankSymbol] ++ b.after else front ++ b.after) := by
  have hne : b.before ≠ [] := by
    rw [hbefore]
    exact List.append_ne_nil_of_right_ne_nil front hv.fillsBlank.ne_nil
  obtain ⟨left, right, hdeletes⟩ := exists_deletes hne
  have htext := hdeletes.text_delete
  cases hdeletes with
  | filled hfilled =>
      rw [hbefore] at hfilled htext
      obtain ⟨x, hx, hrecognised⟩ := exists_recognised hv hfilled
      rw [hx, if_neg (by simp [Template.text_ne_nil])] at htext
      exact .inl ⟨x, _, hrecognised, htext⟩
  | whole hwhole =>
      exfalso
      cases hwhole with
      | template hfilled hempty =>
          rw [hbefore, hv.emptyTemplateBefore?_eq_none] at hempty
          cases hempty
      | slot hunit hcloser => exact hv.ne_blank (hunit.eq_of_before hv hk hbefore).2.symm
  | operand hunit hblank hcloser hvalue =>
      obtain ⟨rfl, rfl⟩ := hunit.eq_of_before hv hk hbefore
      refine .inr ⟨hbefore ▸ hunit.not_filled, fun hafter => ?_⟩
      rw [if_neg (List.append_ne_nil_of_right_ne_nil _ hafter)] at htext
      rw [htext, if_pos ⟨Option.ne_none_iff_exists'.2 ⟨_, hcloser⟩, hvalue⟩]
  | unit hunit hcloser =>
      obtain ⟨rfl, rfl⟩ := hunit.eq_of_before hv hk hbefore
      refine .inr ⟨hbefore ▸ hunit.not_filled, fun hafter => ?_⟩
      rw [if_neg (List.append_ne_nil_of_right_ne_nil _ hafter)] at htext
      rw [htext, if_neg]
      rintro ⟨hsome, hvalue⟩
      rw [(hcloser.resolve_left hsome).2] at hvalue
      cases hvalue

section behind

variable {b : Buffer} (hv : IsFilling v) (hk : Keyed front) (hbefore : b.before = front ++ v)
include hv hk hbefore

theorem text_delete_of_mark (hmark : template.mark? = some mark) (hfront : front = x ++ mark) :
    b.delete.text = front ++ [blankSymbol] ++ b.after := by
  rcases text_delete_of_value hv hk hbefore with ⟨y, found, hrecognised, hdelete⟩ | ⟨hnone, -⟩
  · have hdetached := detached_mark hmark x v
    rw [← hfront] at hdetached
    rw [hdelete, (append_text_eq_iff hrecognised).2 hdetached]
  · rw [hfront] at hnone
    exact absurd hnone
      (Filled.before?_ne_none_of_mark hmark hv.fillsBlank (hv.withoutFinalBreak (x ++ mark)))

theorem text_delete_of_closer_iff (hcloser : closer? b.after ≠ none) :
    b.delete.text = front ++ [blankSymbol] ++ b.after ↔ Detached front v := by
  rcases text_delete_of_value hv hk hbefore with ⟨x, found, hrecognised, hdelete⟩ | ⟨hnone, hdelete⟩
  · rw [hdelete, List.append_left_inj, append_text_eq_iff hrecognised]
  · have hafter : b.after ≠ [] := by
      intro hnil
      rw [hnil] at hcloser
      exact hcloser (by decide)
    rw [hdelete hafter, detached_iff_of_none hv hnone]
    cases hvalue : endsWithValue front with
    | false => simp [hcloser]
    | true => simp

theorem text_delete_of_parentheses {f : CircularFunction} (hfront : front = x ++ (f.text ++ ['(']))
    (hafter : b.after = ')' :: back) : b.delete.text = front ++ b.after := by
  have hlast : front.getLast? = some '(' := by
    rw [hfront, ← List.append_assoc, List.getLast?_concat]
  rcases text_delete_of_value hv hk hbefore with ⟨y, found, hrecognised, -⟩ | ⟨-, hdelete⟩
  · exact absurd hlast hrecognised.getLast?_ne
  · rw [hafter] at hdelete ⊢
    have hcloser : closer? (')' :: back) = none := rfl
    rw [hdelete (List.cons_ne_nil _ _), hcloser, if_neg fun h => h.1 rfl]

end behind

/-! ### Slots -/

/-- The kinds of slots that stand in front of a suffix. -/
def suffixedKinds : List SlotKind :=
  [.square, .cube, .reciprocal, .factorial]

theorem closer?_ne_none_of_suffix {s : Suffix} (h : template.suffix? = some s) (t : Text) :
    closer? (s.text ++ t) ≠ none := by
  have hmem : s.text ∈ slotClosers := by
    cases template <;> cases h <;> decide
  rw [closer?, ← Option.isSome_iff_ne_none, List.find?_isSome]
  exact ⟨s.text, hmem, Text.startsWith_iff.2 (List.prefix_append _ _)⟩

/-- What a slot has in front of the place of its operand, in this place, and behind it. -/
inductive SlotParts (kind : SlotKind) : (opening middle closing : Text) → Prop where
  | mark {f : Template} {mark : Text} (hkind : kind ∉ suffixedKinds) (hmark : f.mark? = some mark) :
      SlotParts kind mark [blankSymbol] []
  | suffix {f : Template} {s : Suffix} (hkind : kind ∈ suffixedKinds) (hs : f.suffix? = some s) :
      SlotParts kind [] [blankSymbol] s.text
  | parentheses (f : CircularFunction) (hkind : kind ∉ suffixedKinds) :
      SlotParts kind (f.text ++ ['(']) [] [')']

theorem exists_slotParts {kind : SlotKind} {p : Text} (hp : p ∈ kind.patterns)
    (hlone : kind ≠ .lone) : ∃ opening middle closing,
      p = opening ++ middle ++ closing ∧ SlotParts kind opening middle closing := by
  have hmark {f : Template} {mark : Text} (hf : f.mark? = some mark) (hp : p ∈ [f.text])
      (hkind : kind ∉ suffixedKinds) : ∃ opening middle closing,
        p = opening ++ middle ++ closing ∧ SlotParts kind opening middle closing := by
    rw [List.mem_singleton.1 hp, Template.text_of_mark? hf]
    exact ⟨mark, _, [], (List.append_nil _).symm, .mark hkind hf⟩
  have hsuffix {f : Template} {s : Suffix} (hf : f.suffix? = some s) (hp : p ∈ [f.text])
      (hkind : kind ∈ suffixedKinds) : ∃ opening middle closing,
        p = opening ++ middle ++ closing ∧ SlotParts kind opening middle closing := by
    rw [List.mem_singleton.1 hp, Template.text_of_suffix? hf]
    exact ⟨[], _, s.text, rfl, .suffix hkind hf⟩
  have hcircular {inverse : Bool} (hp : p ∈ SlotKind.emptyCircular inverse)
      (hkind : kind ∉ suffixedKinds) : ∃ opening middle closing,
        p = opening ++ middle ++ closing ∧ SlotParts kind opening middle closing := by
    obtain ⟨c, -, rfl⟩ := List.mem_map.1 hp
    refine ⟨_, _, _, ?_, .parentheses ⟨c, inverse⟩ hkind⟩
    simp [Template.text]
  cases kind with
  | fraction => cases hp
  | root => exact hmark (f := .root) rfl hp (by decide)
  | square => exact hsuffix (f := .square) rfl hp (by decide)
  | log => exact hmark (f := .marker .log) rfl hp (by decide)
  | tenPower => exact hmark (f := .marker .tenPower) rfl hp (by decide)
  | circular => exact hcircular hp (by decide)
  | inverse => exact hcircular hp (by decide)
  | ln => exact hmark (f := .marker .ln) rfl hp (by decide)
  | exp => exact hmark (f := .marker .exp) rfl hp (by decide)
  | cube => exact hsuffix (f := .cube) rfl hp (by decide)
  | reciprocal => exact hsuffix (f := .reciprocal) rfl hp (by decide)
  | factorial => exact hsuffix (f := .factorial) rfl hp (by decide)
  | lone => exact absurd rfl hlone

section slot

variable {b : Buffer} {kind : SlotKind} {s : Span} {opening middle closing : Text}

theorem fillSimple_eq (hparts : SlotParts kind opening middle closing)
    (htext : b.text = front ++ (opening ++ middle ++ closing) ++ back)
    (hstart : s.start = front.length)
    (hstop : s.stop = s.start + (opening ++ middle ++ closing).length) (v : Text) :
    b.fillSimple s v =
      b.splice (front ++ opening).length (front ++ opening ++ middle).length v := by
  have hlength {u : Text} : (u ++ [blankSymbol]).length = u.length + 1 := List.length_append
  cases hparts with
  | mark hkind hmark =>
      rw [List.append_nil] at htext hstop
      rw [fillSimple_blank htext (Template.blank_not_mem_mark hmark) hstart hstop, hlength]
  | suffix =>
      rw [List.nil_append] at htext hstop
      rw [@fillSimple_blank b s front back [] _ htext List.not_mem_nil hstart hstop, hlength]
  | parentheses f =>
      have hp : f.text ++ ['('] ++ [] ++ [')'] = f.text ++ ['(', ')'] := by simp
      rw [hp] at htext hstop
      rw [fillSimple_parentheses htext hstart hstop, List.append_nil]
      simp

theorem keyed_parts (hparts : SlotParts kind opening middle closing)
    (htext : b.text = front ++ (opening ++ middle ++ closing) ++ back) (hk : Keyed b.text) :
    Keyed (front ++ opening) ∧ Keyed (closing ++ back) := by
  have hblank {u v : Text} (h : Keyed (u ++ blankSymbol :: v)) : Keyed u ∧ Keyed v := by
    obtain ⟨hu, hv⟩ := (opens_cons (by decide) v).keyed h
    exact ⟨hu, ((keyed_cons_iff (by decide)).1 hv).2⟩
  rw [htext] at hk
  cases hparts with
  | mark => exact hblank (by simpa using hk)
  | suffix => exact hblank (by simpa using hk)
  | parentheses f =>
      have hp : front ++ (f.text ++ ['('] ++ [] ++ [')']) ++ back =
          (front ++ (f.text ++ ['('])) ++ ')' :: back := by simp
      rw [hp] at hk
      exact (opens_cons (by decide) back).keyed hk

theorem fillSimple_parts (hparts : SlotParts kind opening middle closing)
    (htext : b.text = front ++ (opening ++ middle ++ closing) ++ back)
    (hstart : s.start = front.length)
    (hstop : s.stop = s.start + (opening ++ middle ++ closing).length) (hk : Keyed b.text)
    (hv : IsFilling v) : Keyed (front ++ opening) ∧
      (b.fillSimple s v).before = front ++ opening ++ v ∧
      (b.fillSimple s v).after = closing ++ back := by
  obtain ⟨hfront, hback⟩ := keyed_parts hparts htext hk
  have htext' : b.text = (front ++ opening ++ middle) ++ (closing ++ back) := by
    rw [htext]
    simp only [List.append_assoc]
  have htake : b.text.take (front ++ opening).length = front ++ opening := by
    rw [htext', List.append_assoc, List.take_left]
  have hput := b.replace_keyed hfront hv.keyed hback hv.fillsBlank.ne_nil
  refine ⟨hfront, ?_⟩
  rw [fillSimple_eq hparts htext hstart hstop, splice, htake, htext', List.drop_left,
    ← List.length_append]
  rw [before, after, hput.1, hput.2, List.take_left, List.drop_left]
  exact ⟨rfl, rfl⟩

/-- A deletion right behind a value that has filled a slot restores the text, but in front of a
suffix only where the blank was detached. -/
theorem delete_fillSimple_iff (hslot : .simple kind s ∈ slots b.text) (hlone : kind ≠ .lone)
    (hk : Keyed b.text) (hv : IsFilling v) : (b.fillSimple s v).delete.text = b.text ↔
      (kind ∈ suffixedKinds → Detached (b.text.take s.start) v) := by
  obtain ⟨-, front, p, back, htext, hp, hstart, hstop⟩ := exists_of_mem_slots hslot
  obtain ⟨opening, middle, closing, rfl, hparts⟩ := exists_slotParts hp hlone
  obtain ⟨hfront, hbefore, hafter⟩ := fillSimple_parts hparts htext hstart hstop hk hv
  cases hparts with
  | mark hkind hmark =>
      refine iff_of_true ?_ fun h => absurd h hkind
      rw [text_delete_of_mark hv hfront hbefore hmark rfl, hafter, htext]
      simp only [List.append_assoc, List.nil_append, List.append_nil]
  | @suffix f suffix hkind hs =>
      have htake : b.text.take s.start = front := by
        rw [htext, hstart, List.append_assoc, List.take_left]
      have hcloser : closer? (b.fillSimple s v).after ≠ none := by
        rw [hafter]
        exact closer?_ne_none_of_suffix hs back
      rw [List.append_nil] at hfront hbefore
      rw [imp_iff_right hkind, htake, ← text_delete_of_closer_iff hv hfront hbefore hcloser, hafter,
        htext]
      simp only [List.append_assoc, List.nil_append]
  | parentheses f hkind =>
      refine iff_of_true ?_ fun h => absurd h hkind
      rw [text_delete_of_parentheses hv hfront hbefore rfl hafter, hafter, htext]
      simp only [List.append_assoc, List.nil_append]

end slot

/-! ### Insertion and deletion -/

/-- After any sequence of edits of a cleared buffer by keys, when a value other than a sign fills an
open slot that is neither a fraction nor a lone blank, a deletion right behind it restores the text;
but in front of a suffix it does so only where the blank was detached. -/
theorem delete_insert (edits : List Edit) (h : ∀ e ∈ edits, e.IsKeyed) {v : Text}
    (hv : isFillValue v = true) (hminus : v ≠ ['-']) {kind : SlotKind} {s : Span} :
    let b := edits.foldl edited cleared
    slotNear b.text b.cursor = true → b.slotToFill? v = some (.simple kind s) → kind ≠ .lone →
      ((b.insert v).delete.text = b.text ↔
        (kind ∈ suffixedKinds → Detached (b.text.take s.start) v)) := by
  intro b hnear hslot hlone
  have hk : Keyed b.text := keyed_foldl_edited keyed_cleared settled_cleared h
  have hfilling := isFilling_of_isFillValue hv hminus
  have hfill : b.insert v = b.fillSimple s v := by
    refine insert_of_some hfilling.fillsBlank.ne_nil ?_
    rw [filled?, hv, hnear, Bool.and_self, if_pos rfl, fill?, if_pos hv, hslot]
  rw [hfill]
  exact delete_fillSimple_iff (List.mem_of_find?_eq_some hslot) hlone hk hfilling

/-- Behind an operator the blank of a square comes back. -/
theorem delete_insert_square :
    let edits : List Edit := [.insert ['7'], .insert ['×'], .insert Template.square.text]
    let b := edits.foldl edited cleared
    (∀ e ∈ edits, e.IsKeyed) ∧ isFillValue ['5'] = true ∧ ['5'] ≠ ['-'] ∧
      slotNear b.text b.cursor = true ∧ b.slotToFill? ['5'] = some (.simple .square ⟨2, 4⟩) ∧
      Detached (b.text.take 2) ['5'] ∧ (b.insert ['5']).text = "7×5²".toList ∧
      (b.insert ['5']).delete.text = b.text := by
  intro edits b
  have hkeys : ∀ e ∈ edits, e.IsKeyed := by decide
  obtain ⟨hvalue, hminus, hnear, hslot, hfront, htext⟩ : isFillValue ['5'] = true ∧ ['5'] ≠ ['-'] ∧
      slotNear b.text b.cursor = true ∧ b.slotToFill? ['5'] = some (.simple .square ⟨2, 4⟩) ∧
      b.text.take 2 = ['7', '×'] ∧ (b.insert ['5']).text = "7×5²".toList := by
    decide +kernel
  have hdetached : Detached (b.text.take 2) ['5'] :=
    hfront ▸ detached_of_getLast? rfl (by decide) (by decide) ['5']
  exact ⟨hkeys, hvalue, hminus, hnear, hslot, hdetached, htext,
    (delete_insert edits hkeys hvalue hminus hnear hslot (by decide)).2 fun _ => hdetached⟩

/-- In front of a square, the blank does not come back behind a root with a sign, as a denominator,
and behind a value. -/
theorem delete_insert_differs :
    let signed : List Edit :=
      [.insert Template.root.text, .insert ['-'], .insert Template.square.text]
    let denominator : List Edit := [.insert ['3'], .insert Template.fraction.text, .insert ['4'],
      .insert Template.fraction.text, .insert Template.square.text]
    let value : List Edit := [.insert ['5'], .insert ['×'], .insert Template.square.text,
      .move .left, .move .left, .delete]
    let b := signed.foldl edited cleared
    let c := denominator.foldl edited cleared
    let d := value.foldl edited cleared
    (∀ e ∈ signed ++ denominator ++ value, e.IsKeyed) ∧
      (∀ a ∈ [b, c, d], slotNear a.text a.cursor = true) ∧
      b.text = "√-□²".toList ∧ b.slotToFill? ['5'] = some (.simple .square ⟨2, 4⟩) ∧
      (b.insert ['5']).text = "√-5²".toList ∧ (b.insert ['5']).delete.text = "√□²".toList ∧
      c.text = "3/4/□²".toList ∧ c.slotToFill? ['5'] = some (.simple .square ⟨4, 6⟩) ∧
      (c.insert ['5']).text = "3/4/5²".toList ∧
      (c.insert ['5']).delete.text = "3/□/□²".toList ∧
      d.text = "5□²".toList ∧ d.slotToFill? ['5'] = some (.simple .square ⟨1, 3⟩) ∧
      (d.insert ['5']).text = "55²".toList ∧ (d.insert ['5']).delete.text = "5²".toList := by
  decide +kernel

end Buffer
end PocketCalculator
