import PocketCalculator.Proofs.Buffer.Editing
import PocketCalculator.Proofs.Template.Separation

/-! # Laws of movement

Movements keep the text.  A step to the left and a step to the right undo each other where both are
possible (`Buffer.move_left_right`, `Buffer.move_right_left`), because the cursor goes to and fro
between two neighbouring boundaries.

A movement up or down parks the cursor at the end of a half of a fraction (`Buffer.Parked`).  The
search for a fraction starts again with every movement, among fractions that may touch, but from the
end of a half it finds the same one.  So each further movement leads to the other half, which is
`Buffer.move_navigates`. -/

namespace PocketCalculator

namespace Buffer

/-! ### Steps to a neighbouring unit -/

variable {b : Buffer}

theorem move_left_right (hb : b.cursor ∈ boundaries b.text) (h0 : b.cursor ≠ 0) :
    (b.move .left).move .right = b := by
  obtain ⟨l, q, r, h⟩ := exists_boundary_before hb h0
  simp only [move]
  rw [boundaryBefore_of_eq h, boundaryAfter_of_eq h]

theorem move_right_left (hb : b.cursor ∈ boundaries b.text) (hend : b.cursor ≠ b.text.length) :
    (b.move .right).move .left = b := by
  obtain ⟨l, p, r, h⟩ := exists_boundary_behind hb hend
  simp only [move]
  rw [boundaryAfter_of_eq h, boundaryBefore_of_eq h]

/-! ### Steps between the halves of a fraction -/

/-- The half to which a movement up or down leads first. -/
def Direction.half? : Direction → Option Half
  | .up => some .numerator
  | .down => some .denominator
  | .left | .right => none

/-- The cursor stands at the end of a half of a fraction, which is the one being edited. -/
structure Parked (b : Buffer) (f : FractionSpan) (h : Half) : Prop where
  mem_fractions : f ∈ fractions b.text
  cursor_eq : b.cursor = f.halfStop h
  fraction_eq : b.fraction = .editing h

theorem move_of_half? {d : Direction} {first : Half} (hd : d.half? = some first) (b : Buffer) :
    b.move d = b.moveHalf first := by
  cases d with
  | left => cases hd
  | right => cases hd
  | up =>
      cases hd
      rfl
  | down =>
      cases hd
      rfl

/-- The half to which the next movement up or down leads. -/
def nextHalf (b : Buffer) (first : Half) : Half :=
  if b.fraction.active then b.fraction.focus.other else first

theorem parked_moveHalf {f : FractionSpan} (hf : findFraction? b.text (some b.cursor) = some f)
    (first : Half) : (b.moveHalf first).Parked f (b.nextHalf first) := by
  unfold moveHalf nextHalf
  rw [hf]
  dsimp only
  refine ⟨mem_fractions_of_findFraction? hf, ?_, ?_⟩
  · split <;> rfl
  · split
    · rename_i hactive
      simp [FractionEdit.toggle, FractionEdit.editing, hactive]
    · rfl

namespace Parked

variable {f : FractionSpan} {h : Half}

theorem findFraction?_eq (hp : b.Parked f h) :
    findFraction? b.text (some b.cursor) = some f := by
  rw [hp.cursor_eq]
  exact FractionSpan.findFraction?_halfStop hp.mem_fractions h

theorem cursor_mem (hp : b.Parked f h) : b.cursor ∈ boundaries b.text := by
  rw [hp.cursor_eq]
  exact FractionSpan.halfStop_mem_boundaries hp.mem_fractions h

/-- A further movement up or down leads to the other half. -/
theorem move (hp : b.Parked f h) {d : Direction} (hd : d.half? ≠ none) :
    (b.move d).Parked f h.other := by
  obtain ⟨first, hd⟩ := Option.ne_none_iff_exists'.1 hd
  have hnext : b.nextHalf first = h.other := by
    rw [nextHalf, hp.fraction_eq]
    rfl
  rw [move_of_half? hd, ← hnext]
  exact parked_moveHalf hp.findFraction?_eq first

theorem foldl_move (hp : b.Parked f h) {ds : List Direction} (hds : ∀ d ∈ ds, d.half? ≠ none) :
    (ds.foldl Buffer.move b).Parked f (Half.other^[ds.length] h) := by
  induction ds generalizing b h with
  | nil => exact hp
  | cons d ds ih =>
      exact ih (hp.move (hds d List.mem_cons_self)) fun e he => hds e (List.mem_cons_of_mem d he)

end Parked

theorem text_foldl_move (b : Buffer) (ds : List Direction) :
    (ds.foldl move b).text = b.text := by
  induction ds generalizing b with
  | nil => rfl
  | cons d ds ih => rw [List.foldl_cons, ih, text_move]

/-- Movements keep the text, and steps to the left and to the right undo each other.  Once a movement
up or down has found a fraction, all further ones find it, and lead to the end of the one and of the
other half in turn, which are boundaries. -/
theorem move_navigates (hb : b.cursor ∈ boundaries b.text) :
    (∀ ds : List Direction, (ds.foldl move b).text = b.text) ∧
    (b.cursor ≠ 0 → (b.move .left).move .right = b) ∧
    (b.cursor ≠ b.text.length → (b.move .right).move .left = b) ∧
    ∀ d first f, Direction.half? d = some first →
      findFraction? b.text (some b.cursor) = some f →
      ∀ ds : List Direction, (∀ e ∈ ds, e.half? ≠ none) →
        let b' := (d :: ds).foldl move b
        findFraction? b'.text (some b'.cursor) = some f ∧
        b'.cursor = f.halfStop (Half.other^[ds.length] (b.nextHalf first)) ∧
        b'.cursor ∈ boundaries b'.text := by
  refine ⟨text_foldl_move b, move_left_right hb, move_right_left hb, ?_⟩
  intro d first f hd hf ds hds
  have hfirst : (b.move d).Parked f (b.nextHalf first) := by
    rw [move_of_half? hd]
    exact parked_moveHalf hf first
  have hparked := hfirst.foldl_move hds
  exact ⟨hparked.findFraction?_eq, hparked.cursor_eq, hparked.cursor_mem⟩

/-- Of two fractions that touch, the first one keeps the cursor. -/
theorem move_navigates_touching :
    let b : Buffer := ⟨"1/□3/4".toList, 3, .idle⟩
    b.cursor ∈ boundaries b.text ∧ b.cursor ≠ 0 ∧ b.cursor ≠ b.text.length ∧
      findFraction? b.text (some b.cursor) = some ⟨0, ['1'], ['□']⟩ ∧
      (b.move .left).move .right = b ∧ (b.move .right).move .left = b ∧
      let b' := [Direction.down, .up, .up].foldl move b
      findFraction? b'.text (some b'.cursor) = some ⟨0, ['1'], ['□']⟩ ∧ b'.cursor = 3 ∧
        b'.cursor ∈ boundaries b'.text := by
  intro b
  have hb : b.cursor ∈ boundaries b.text := by decide +kernel
  have h0 : b.cursor ≠ 0 := by decide
  have hend : b.cursor ≠ b.text.length := by decide
  have hf : findFraction? b.text (some b.cursor) = some ⟨0, ['1'], ['□']⟩ := by decide
  obtain ⟨-, hleft, hright, hhalves⟩ := move_navigates hb
  exact ⟨hb, h0, hend, hf, hleft h0, hright hend,
    hhalves .down .denominator _ rfl hf [.up, .up] (by decide)⟩

end Buffer
end PocketCalculator
