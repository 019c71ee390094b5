import PocketCalculator.Buffer.Edit
import PocketCalculator.Proofs.Buffer.Filling

/-! # Sequences of edits

An edit is one call that changes the buffer from outside, with any text, any cursor and any half of
a fraction that it is given.  A buffer is *settled* when its text is not empty and its cursor rests
on a boundary of the text.  A text enters a buffer through `Buffer.replace` only, which settles any
buffer; the movements keep the text and look for another boundary, where the movements to a half of
a fraction rely on the fact that a half ends on a boundary.

`Buffer.settled_edited` says that every edit keeps a settled buffer settled, and
`Buffer.edited_settled` that so does every sequence of edits of a cleared one. -/

namespace PocketCalculator

/-! ### Edits -/

/-- The calls that change a buffer. -/
inductive Edit where
  | insert (t : Text)
  | delete
  | move (d : Buffer.Direction)
  | clear
  | replace (t : Text) (cursor : Int)
  | toggleSign
  | fill (t : Text)
  | enterFraction (focus : Half)
  | toggleFraction
  | resetFraction
  deriving DecidableEq, Repr

namespace Buffer

/-- The buffer after an edit.  A value that fills no slot leaves it as it is. -/
def edited (b : Buffer) : Edit → Buffer
  | .insert t => b.insert t
  | .delete => b.delete
  | .move d => b.move d
  | .clear => cleared
  | .replace t cursor => b.replace t cursor
  | .toggleSign => b.toggleSign
  | .fill t => (b.fill? t).getD b
  | .enterFraction focus => b.withFraction (.editing focus)
  | .toggleFraction => b.withFraction b.fraction.toggle
  | .resetFraction => b.withFraction .idle

/-- A text is there, and the cursor rests on one of its boundaries. -/
structure Settled (b : Buffer) : Prop where
  text_ne_nil : b.text ≠ []
  cursor_mem : b.cursor ∈ boundaries b.text

/-! ### Texts -/

theorem before_append_after (b : Buffer) : b.before ++ b.after = b.text :=
  List.take_append_drop _ _

theorem length_before {b : Buffer} (hs : b.Settled) : b.before.length = b.cursor :=
  List.length_take_of_le (le_length_of_mem_boundaries hs.cursor_mem)

theorem text_replace (b : Buffer) {t : Text} (ht : t ≠ []) (cursor : Int) :
    (b.replace t cursor).text = t := by
  rw [replace, if_neg ht]

theorem text_splice (b : Buffer) (start stop : Nat) {t : Text} (ht : t ≠ []) :
    (b.splice start stop t).text = b.text.take start ++ t ++ b.text.drop stop :=
  b.text_replace (by simp [ht]) _

theorem text_moveHalf (b : Buffer) (half : Half) : (b.moveHalf half).text = b.text := by
  rw [moveHalf]
  split <;> rfl

theorem text_move (b : Buffer) (d : Direction) : (b.move d).text = b.text := by
  cases d with
  | left => rfl
  | right => rfl
  | up => exact b.text_moveHalf .numerator
  | down => exact b.text_moveHalf .denominator

/-! ### What settles a buffer -/

theorem settled_cleared : cleared.Settled :=
  ⟨List.cons_ne_nil _ _, length_self_mem_boundaries clearedText⟩

theorem settled_replace (b : Buffer) (t : Text) (cursor : Int) : (b.replace t cursor).Settled := by
  unfold replace
  split
  · exact settled_cleared
  · rename_i ht
    exact ⟨ht, snap_mem_boundaries t cursor⟩

theorem settled_splice (b : Buffer) (start stop : Nat) (t : Text) :
    (b.splice start stop t).Settled :=
  b.settled_replace _ _

theorem Settled.withFraction {b : Buffer} (h : b.Settled) (e : FractionEdit) :
    (b.withFraction e).Settled :=
  ⟨h.text_ne_nil, h.cursor_mem⟩

/-! ### One edit -/

theorem settled_of_fill? {b b' : Buffer} {t : Text} (h : b.fill? t = some b') : b'.Settled := by
  obtain ⟨-, e, start, stop, -, rfl⟩ := exists_of_fill? h
  exact settled_splice _ _ _ _

theorem settled_insertPlain (b : Buffer) (t : Text) : (b.insertPlain t).Settled := by
  unfold insertPlain
  generalize (if isOperatorText t then b.withFraction .idle else b) = b
  dsimp only
  -- the text has been put in by `replace`, whichever way it went
  have hput (inserted : Text) :
      (if b.text = clearedText && replacesZero inserted then b.replace inserted inserted.length
        else b.splice b.cursor b.cursor inserted).Settled := by
    split
    · exact settled_replace _ _ _
    · exact settled_splice _ _ _ _
  split
  · exact (hput _).withFraction _
  · exact hput _

theorem Settled.insert {b : Buffer} (h : b.Settled) (t : Text) : (b.insert t).Settled := by
  unfold Buffer.insert
  split
  · exact h
  · split
    · rename_i filled hf
      split at hf
      · exact settled_of_fill? hf
      · cases hf
    · exact b.settled_insertPlain t

theorem settled_deleteUnit (b : Buffer) : b.deleteUnit.Settled := by
  unfold deleteUnit
  dsimp only
  split
  · split
    · exact settled_replace _ _ _
    · split
      · exact settled_replace _ _ _
      · exact settled_replace _ _ _
  · exact settled_replace _ _ _

theorem Settled.delete {b : Buffer} (h : b.Settled) : b.delete.Settled := by
  unfold Buffer.delete
  split
  · exact h
  · split
    · dsimp only
      split
      · exact (settled_splice _ _ _ _).withFraction _
      · exact settled_splice _ _ _ _
    · split
      · exact settled_splice _ _ _ _
      · exact b.settled_deleteUnit

theorem Settled.moveHalf {b : Buffer} (h : b.Settled) (first : Half) :
    (b.moveHalf first).Settled := by
  unfold Buffer.moveHalf
  split
  · exact h
  · rename_i f hf
    have hmem := mem_fractions_of_findFraction? hf
    exact ⟨h.text_ne_nil, FractionSpan.halfStop_mem_boundaries hmem _⟩

theorem Settled.move {b : Buffer} (h : b.Settled) (d : Direction) : (b.move d).Settled := by
  cases d with
  | left => exact ⟨h.text_ne_nil, boundaryBefore_mem_boundaries b.text b.cursor⟩
  | right => exact ⟨h.text_ne_nil, boundaryAfter_mem_boundaries b.text b.cursor⟩
  | up => exact h.moveHalf .numerator
  | down => exact h.moveHalf .denominator

theorem Settled.toggleSign {b : Buffer} (h : b.Settled) : b.toggleSign.Settled := by
  unfold Buffer.toggleSign
  dsimp only
  split
  · exact h
  · split
    · exact settled_replace _ _ _
    · exact settled_replace _ _ _

/-- Every edit keeps a settled buffer settled. -/
theorem settled_edited {b : Buffer} (h : b.Settled) (e : Edit) : (b.edited e).Settled := by
  cases e with
  | insert t => exact h.insert t
  | delete => exact h.delete
  | move d => exact h.move d
  | clear => exact settled_cleared
  | replace t cursor => exact b.settled_replace t cursor
  | toggleSign => exact h.toggleSign
  | fill t =>
      cases hf : b.fill? t with
      | none => rwa [edited, hf]
      | some b' =>
          rw [edited, hf]
          exact settled_of_fill? hf
  | enterFraction focus => exact h.withFraction _
  | toggleFraction => exact h.withFraction _
  | resetFraction => exact h.withFraction _

/-! ### Sequences of edits -/

theorem settled_foldl_edited {b : Buffer} (h : b.Settled) (edits : List Edit) :
    (edits.foldl edited b).Settled := by
  induction edits generalizing b with
  | nil => exact h
  | cons e edits ih => exact ih (settled_edited h e)

/-- After any sequence of edits of a cleared buffer, the text is not empty and the cursor rests on a
boundary of it. -/
theorem edited_settled (edits : List Edit) :
    let b := edits.foldl edited cleared
    b.text ≠ [] ∧ b.cursor ≤ b.text.length ∧ b.cursor ∈ boundaries b.text := by
  have h := settled_foldl_edited settled_cleared edits
  exact ⟨h.text_ne_nil, le_length_of_mem_boundaries h.cursor_mem, h.cursor_mem⟩

end Buffer
end PocketCalculator
