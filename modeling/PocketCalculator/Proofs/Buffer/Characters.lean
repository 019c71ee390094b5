import PocketCalculator.Proofs.Buffer.Atomic

/-! # The characters of a text

An edit puts no characters into a buffer but those of the text that it is given, of the templates,
the zero and the minus.  All of these are characters of the calculator, to which those of the texts
of infinities belong as well, and so a text has no others (`Buffer.edited_subset`).  Among such
texts the keyed ones are those that the scanner accepts (`Spelled.keyed`). -/

namespace PocketCalculator

/-! ### Characters of the calculator -/

/-- The texts that stand for what is no finite number. -/
def specialTexts : List Text :=
  ["nan".toList, "inf".toList, "-inf".toList]

/-- The characters of the texts that the keys insert, a recalled memory included. -/
def calculatorChars : Text :=
  (keyTexts ++ specialTexts).flatten

theorem subset_of_mem_keyTexts {t : Text} (h : t ∈ keyTexts) : t ⊆ calculatorChars :=
  fun _ hc => List.mem_flatten.2 ⟨t, List.mem_append_left _ h, hc⟩

theorem subset_of_mem_specialTexts {t : Text} (h : t ∈ specialTexts) : t ⊆ calculatorChars :=
  fun _ hc => List.mem_flatten.2 ⟨t, List.mem_append_right _ h, hc⟩

theorem arithmeticChars_subset : arithmeticChars ⊆ calculatorChars := by
  decide

theorem Template.text_subset (template : Template) : template.text ⊆ calculatorChars := by
  refine subset_of_mem_keyTexts (List.mem_append_right _ (List.mem_cons_of_mem _ ?_))
  exact List.mem_map_of_mem template.mem_all

/-- A text with these characters that the scanner accepts is made of key units. -/
theorem Spelled.keyed {t : Text} (h : Spelled t) (ht : t ⊆ calculatorChars) : Keyed t := by
  have key : calculatorChars.all (fun c =>
      (isBlank c = true ∨ isNumeralChar c = true ∨ (Token.ofChar? c).isSome = true) →
        c ∈ keyChars) = true := by decide
  intro u hu
  rcases lexeme_iff.1 (h.lexeme_of_mem_units hu) with ⟨head, rfl⟩ | ⟨c, rfl, hc⟩
  · exact text_mem_keyUnits head
  · have hmem : c ∈ t := by
      rw [← flatten_units t]
      exact List.mem_flatten.2 ⟨[c], hu, List.mem_cons_self⟩
    have hkey := of_decide_eq_true (List.all_eq_true.1 key c (ht hmem)) hc
    exact mem_keyUnits_iff.2 (.inl ⟨c, hkey, rfl⟩)

/-! ### One edit -/

/-- The text that an edit is given. -/
def Edit.text : Edit → Text
  | .insert t | .replace t _ | .fill t => t
  | _ => []

namespace Buffer

variable {b b' : Buffer} {t : Text}

theorem replace_subset (b : Buffer) (ht : t ⊆ calculatorChars) (cursor : Int) :
    (b.replace t cursor).text ⊆ calculatorChars := by
  rw [replace]
  split
  · exact subset_of_mem_keyTexts (t := clearedText) (by decide)
  · exact ht

theorem splice_subset (hb : b.text ⊆ calculatorChars) (ht : t ⊆ calculatorChars)
    (start stop : Nat) : (b.splice start stop t).text ⊆ calculatorChars := by
  refine b.replace_subset (List.append_subset.2 ⟨List.append_subset.2 ⟨?_, ht⟩, ?_⟩) _
  · exact List.Subset.trans (List.take_subset start b.text) hb
  · exact List.Subset.trans (List.drop_subset stop b.text) hb

theorem fill?_subset (hb : b.text ⊆ calculatorChars) (ht : t ⊆ calculatorChars)
    (h : b.fill? t = some b') : b'.text ⊆ calculatorChars := by
  obtain ⟨-, e, start, stop, -, rfl⟩ := exists_of_fill? h
  exact splice_subset (b := b.withFraction e) hb ht start stop

theorem insertPlain_subset (hb : b.text ⊆ calculatorChars) (ht : t ⊆ calculatorChars) :
    (b.insertPlain t).text ⊆ calculatorChars := by
  have hinserted : b.inserted t ⊆ calculatorChars := by
    rw [inserted]
    split
    · exact List.Subset.trans (List.drop_subset 1 t) ht
    · exact ht
  obtain ⟨e, e', heq⟩ := b.exists_insertPlain_eq t
  rw [heq]
  split
  · exact (b.withFraction e).replace_subset hinserted _
  · exact splice_subset (b := b.withFraction e) hb hinserted _ _

theorem insert_subset (hb : b.text ⊆ calculatorChars) (ht : t ⊆ calculatorChars) :
    (b.insert t).text ⊆ calculatorChars := by
  by_cases hne : t = []
  · rwa [insert, if_pos hne]
  · cases hf : b.filled? t with
    | none =>
        rw [insert_of_none hne hf]
        exact insertPlain_subset hb ht
    | some b' =>
        rw [insert_of_some hne hf]
        rw [filled?] at hf
        split at hf
        · exact fill?_subset hb ht hf
        · cases hf

theorem delete_subset (hb : b.text ⊆ calculatorChars) : b.delete.text ⊆ calculatorChars := by
  have hbefore : b.before ⊆ calculatorChars := List.Subset.trans (List.take_subset _ _) hb
  have hafter : b.after ⊆ calculatorChars := List.Subset.trans (List.drop_subset _ _) hb
  by_cases hnil : b.before = []
  · rwa [delete_of_before hnil]
  · obtain ⟨front, back, hdeletes⟩ := exists_deletes hnil
    have hparts : front ⊆ calculatorChars ∧ back ⊆ calculatorChars := by
      have hremaining {remaining unit : Text} (h : b.TakesUnit remaining unit) :
          remaining ⊆ calculatorChars := by
        rw [h.before_eq] at hbefore
        exact (List.append_subset.1 hbefore).1
      cases hdeletes with
      | @filled start template _ =>
          refine ⟨List.append_subset.2 ⟨?_, template.text_subset⟩, hafter⟩
          exact List.Subset.trans (List.take_subset start _) hbefore
      | whole hwhole =>
          cases hwhole with
          | template => exact ⟨List.Subset.trans (List.take_subset _ _) hbefore, hafter⟩
          | slot hunit =>
              exact ⟨hremaining hunit, List.Subset.trans (List.drop_subset _ _) hafter⟩
      | operand hunit =>
          exact ⟨List.append_subset.2 ⟨hremaining hunit, by decide⟩, hafter⟩
      | unit hunit => exact ⟨hremaining hunit, hafter⟩
    rw [hdeletes.text_delete]
    split
    · exact subset_of_mem_keyTexts (t := clearedText) (by decide)
    · exact List.append_subset.2 hparts

theorem toggleSign_subset (hb : b.text ⊆ calculatorChars) :
    b.toggleSign.text ⊆ calculatorChars := by
  have htake (n : Nat) : b.text.take n ⊆ calculatorChars :=
    List.Subset.trans (List.take_subset n _) hb
  have hdrop (n : Nat) : b.text.drop n ⊆ calculatorChars :=
    List.Subset.trans (List.drop_subset n _) hb
  unfold toggleSign
  dsimp only
  split
  · exact hb
  · split
    · refine b.replace_subset (List.append_subset.2 ⟨?_, hdrop _⟩) _
      exact List.Subset.trans (List.dropLast_subset _) (htake _)
    · refine b.replace_subset (List.append_subset.2 ⟨htake _, ?_⟩) _
      exact List.cons_subset.2 ⟨arithmeticChars_subset (by decide), hdrop _⟩

/-- No edit puts another character in than those of the calculator. -/
theorem edited_subset (hb : b.text ⊆ calculatorChars) {e : Edit}
    (he : e.text ⊆ calculatorChars) : (b.edited e).text ⊆ calculatorChars := by
  cases e with
  | insert t => exact insert_subset hb he
  | delete => exact delete_subset hb
  | move d =>
      rw [edited, text_move]
      exact hb
  | clear => exact subset_of_mem_keyTexts (t := clearedText) (by decide)
  | replace t cursor => exact b.replace_subset he cursor
  | toggleSign => exact toggleSign_subset hb
  | fill t =>
      cases hf : b.fill? t with
      | none => rwa [edited, hf]
      | some b' =>
          rw [edited, hf]
          exact fill?_subset hb he hf
  | _ => exact hb

end Buffer
end PocketCalculator
