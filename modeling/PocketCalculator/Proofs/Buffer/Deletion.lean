import PocketCalculator.Proofs.Buffer.Editing
import PocketCalculator.Proofs.Template.Filled

/-! # What a deletion does

A deletion goes one of five ways: a filled template goes back to its empty form, an empty template
goes as a whole, an empty slot goes with what closes it, an operand of which a suffix or a bar
stands behind the cursor gives its place to a blank, and otherwise one display unit goes.
`Buffer.Deletes` lists them with the texts that come to stand on both sides of the cursor, and
`Buffer.exists_deletes` says that there are no others, so what holds of all deletions is shown by
cases on it.  `Buffer.Deletes.delete_eq` is what the deletion gives in each of them. -/

namespace PocketCalculator.Buffer

variable {b : Buffer}

theorem withFraction_self (b : Buffer) : b.withFraction b.fraction = b := rfl

/-! ### The ways of a deletion -/

/-- No template ends in front of the cursor, and the last display unit there is `unit`, behind
`remaining`. -/
structure TakesUnit (b : Buffer) (remaining unit : Text) : Prop where
  not_filled : Filled.before? b.before = none
  not_empty : emptyTemplateBefore? b.before = none
  exists_units : ∃ l, units b.before = l ++ [unit] ∧ remaining = l.flatten

/-- A deletion takes away a whole from between two texts: an empty template, or an empty slot with
what closes it. -/
inductive TakesWhole (b : Buffer) : (front back : Text) → Prop where
  | template {start} (hfilled : Filled.before? b.before = none)
      (hempty : emptyTemplateBefore? b.before = some start) :
      TakesWhole b (b.before.take start) b.after
  | slot {remaining closer} (hunit : b.TakesUnit remaining [blankSymbol])
      (hcloser : closer? b.after = some closer) :
      TakesWhole b remaining (b.after.drop (closerLength closer b.after))

/-- The ways in which a deletion goes, with the texts in front of the cursor and behind it
afterwards. -/
inductive Deletes (b : Buffer) : (front back : Text) → Prop where
  | filled {start template} (hfilled : Filled.before? b.before = some (start, template)) :
      Deletes b (b.before.take start ++ template.text) b.after
  | whole {front back} (hwhole : b.TakesWhole front back) : Deletes b front back
  /-- The unit was the operand of what stands behind the cursor. -/
  | operand {remaining unit closer} (hunit : b.TakesUnit remaining unit)
      (hblank : unit ≠ [blankSymbol]) (hcloser : closer? b.after = some closer)
      (hvalue : endsWithValue remaining = false) :
      Deletes b (remaining ++ [blankSymbol]) b.after
  | unit {remaining unit} (hunit : b.TakesUnit remaining unit)
      (hcloser : closer? b.after = none ∨ unit ≠ [blankSymbol] ∧ endsWithValue remaining = true) :
      Deletes b remaining b.after

theorem TakesUnit.before_eq {remaining unit : Text} (h : b.TakesUnit remaining unit) :
    b.before = remaining ++ unit := by
  obtain ⟨l, hl, rfl⟩ := h.exists_units
  rw [← flatten_units b.before, hl, List.flatten_append, List.flatten_singleton]

theorem TakesUnit.mem_units {remaining unit : Text} (h : b.TakesUnit remaining unit) :
    unit ∈ units b.before := by
  obtain ⟨l, hl, -⟩ := h.exists_units
  rw [hl]
  exact List.mem_append_right l List.mem_cons_self

/-- Where a text is in front of the cursor, a deletion goes one of these ways. -/
theorem exists_deletes (h : b.before ≠ []) : ∃ front back, b.Deletes front back := by
  cases hfilled : Filled.before? b.before with
  | some r => exact ⟨_, _, .filled hfilled⟩
  | none =>
      cases hempty : emptyTemplateBefore? b.before with
      | some start => exact ⟨_, _, .whole (.template hfilled hempty)⟩
      | none =>
          obtain ⟨l, unit, hl, -⟩ := exists_units_concat h
          have hunit : b.TakesUnit l.flatten unit := ⟨hfilled, hempty, l, hl, rfl⟩
          cases hcloser : closer? b.after with
          | none => exact ⟨_, _, .unit hunit (.inl hcloser)⟩
          | some closer =>
              by_cases hblank : unit = [blankSymbol]
              · subst hblank
                exact ⟨_, _, .whole (.slot hunit hcloser)⟩
              · cases hvalue : endsWithValue l.flatten with
                | true => exact ⟨_, _, .unit hunit (.inr ⟨hblank, hvalue⟩)⟩
                | false => exact ⟨_, _, .operand hunit hblank hcloser hvalue⟩

/-! ### What a deletion leaves -/

/-- What is found at the end in front of the cursor, one line feed apart, stands there. -/
theorem take_before {u v : Text} (h : withoutFinalBreak b.before = u ++ v) (hv : v ≠ []) :
    b.before ≠ [] ∧ b.before.take u.length = u ∧ u.length ≤ b.before.length := by
  obtain ⟨rest, hrest⟩ := isPrefix_withoutFinalBreak b.before
  rw [h, List.append_assoc] at hrest
  rw [← hrest, List.take_left, List.length_append]
  refine ⟨?_, rfl, Nat.le_add_right _ _⟩
  exact List.append_ne_nil_of_right_ne_nil u (List.append_ne_nil_of_left_ne_nil hv rest)

theorem splice_cursor {start : Nat} (hstart : start ≤ b.before.length) (t : Text) :
    b.splice start b.cursor t = b.replace ((b.before.take start ++ t) ++ b.after)
      (b.before.take start ++ t).length := by
  have hcursor : start ≤ b.cursor := hstart.trans (List.length_take_le _ _)
  have htake : b.before.take start = b.text.take start := by
    rw [before, List.take_take, Nat.min_eq_left hcursor]
  rw [splice, ← htake, List.length_append, List.length_take_of_le hstart]
  rfl

theorem TakesUnit.delete_eq_deleteUnit {remaining unit : Text} (h : b.TakesUnit remaining unit) :
    b.delete = b.deleteUnit ∧ (units b.before).getLastD [] = unit ∧
      b.before.take (b.before.length - unit.length) = remaining := by
  have hbefore := h.before_eq
  obtain ⟨l, hl, -⟩ := h.exists_units
  have hne : b.before ≠ [] := by
    rw [hbefore]
    exact List.append_ne_nil_of_right_ne_nil _ (ne_nil_of_mem_units h.mem_units)
  refine ⟨?_, ?_, ?_⟩
  · rw [delete, if_neg hne, h.not_filled, h.not_empty]
  · rw [hl, List.getLastD_concat]
  · rw [hbefore, List.length_append, Nat.add_sub_cancel, List.take_left]

theorem TakesUnit.delete_of_none {remaining unit : Text} (h : b.TakesUnit remaining unit)
    (hcloser : closer? b.after = none) :
    b.delete = b.replace (remaining ++ b.after) remaining.length := by
  obtain ⟨hdelete, hunit, hremaining⟩ := h.delete_eq_deleteUnit
  rw [hdelete, deleteUnit, hunit, hremaining, hcloser]

theorem TakesUnit.delete_of_closer {remaining unit closer : Text} (h : b.TakesUnit remaining unit)
    (hcloser : closer? b.after = some closer) :
    b.delete = if unit = [blankSymbol] then
        b.replace (remaining ++ b.after.drop (closerLength closer b.after)) remaining.length
      else if endsWithValue remaining then b.replace (remaining ++ b.after) remaining.length
      else b.replace (remaining ++ [blankSymbol] ++ b.after)
        (remaining ++ [blankSymbol]).length := by
  obtain ⟨hdelete, hunit, hremaining⟩ := h.delete_eq_deleteUnit
  rw [hdelete, deleteUnit, hunit, hremaining, hcloser, List.append_assoc, List.length_append]
  rfl

/-- A deletion joins the texts that it leaves and puts the cursor between them; beside that, it
changes no more than whether a fraction is being edited. -/
theorem Deletes.delete_eq {front back : Text} (h : b.Deletes front back) :
    ∃ e, b.delete = (b.replace (front ++ back) front.length).withFraction e := by
  cases h with
  | @filled start template hfilled =>
      obtain ⟨front, back, ht, rfl, hfills, -⟩ := Filled.exists_inner_of_before? hfilled
      obtain ⟨hne, -, hstart⟩ := take_before ht hfills.ne_nil
      rw [delete, if_neg hne, hfilled]
      dsimp only
      rw [splice_cursor hstart]
      split
      · exact ⟨_, rfl⟩
      · exact ⟨_, (withFraction_self _).symm⟩
  | whole hwhole =>
      refine ⟨b.delete.fraction, ?_⟩
      cases hwhole with
      | template hfilled hempty =>
          obtain ⟨front, template, ht, rfl⟩ := exists_inner_of_emptyTemplateBefore? hempty
          obtain ⟨hne, -, hstart⟩ := take_before ht template.text_ne_nil
          rw [delete, if_neg hne, hfilled, hempty]
          dsimp only
          rw [splice_cursor hstart, List.append_nil, withFraction_self]
      | slot hunit hcloser =>
          rw [hunit.delete_of_closer hcloser, if_pos rfl, withFraction_self]
  | operand hunit hblank hcloser hvalue =>
      refine ⟨b.delete.fraction, ?_⟩
      rw [hunit.delete_of_closer hcloser, if_neg hblank, if_neg (Bool.eq_false_iff.1 hvalue),
        withFraction_self]
  | unit hunit hcloser =>
      refine ⟨b.delete.fraction, ?_⟩
      cases hafter : closer? b.after with
      | none => rw [hunit.delete_of_none hafter, withFraction_self]
      | some closer =>
          obtain ⟨hblank, hvalue⟩ := hcloser.resolve_left (hafter ▸ Option.some_ne_none closer)
          rw [hunit.delete_of_closer hafter, if_neg hblank, if_pos hvalue, withFraction_self]

/-- A deletion leaves these texts, unless both of them are empty. -/
theorem Deletes.text_delete {front back : Text} (h : b.Deletes front back) :
    b.delete.text = if front ++ back = [] then clearedText else front ++ back := by
  obtain ⟨e, he⟩ := h.delete_eq
  rw [he]
  show (b.replace (front ++ back) front.length).text = _
  rw [replace]
  split <;> rfl

theorem delete_of_before (h : b.before = []) : b.delete = b := by
  rw [delete, if_pos h]

end PocketCalculator.Buffer
