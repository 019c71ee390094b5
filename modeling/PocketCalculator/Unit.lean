import PocketCalculator.Symbol

/-! # Display units

A display unit is what the cursor steps over and what a deletion takes away in one go: a head, or
a single character.  The places between two units are the boundaries of a text, and a cursor always
rests on one of them.

`flatten_units` says that the units of a text make up the text. -/

namespace PocketCalculator

/-- The display units of a text, in order. -/
def units (t : Text) : List Text :=
  match t with
  | [] => []
  | c :: rest =>
    match _h : Head.read? (c :: rest) with
    | some (head, rest') => head.text :: units rest'
    | none => [c] :: units rest
termination_by t.length
decreasing_by
  · simpa using Head.length_of_read? _h
  · simp

theorem units_nil : units [] = [] := by
  rw [units]

theorem units_cons_of_head {c : Char} {rest rest' : Text} {head : Head}
    (h : Head.read? (c :: rest) = some (head, rest')) :
    units (c :: rest) = head.text :: units rest' := by
  rw [units]
  split
  · rename_i g r hg
    rw [h] at hg
    cases hg
    rfl
  · rename_i hn
    rw [h] at hn
    cases hn

theorem units_cons_of_char {c : Char} {rest : Text} (h : Head.read? (c :: rest) = none) :
    units (c :: rest) = [c] :: units rest := by
  rw [units]
  split
  · rename_i g r hg
    rw [h] at hg
    cases hg
  · rfl

theorem flatten_units (t : Text) : (units t).flatten = t := by
  fun_induction units t with
  | case1 => rfl
  | case2 c rest head rest' h ih => rw [List.flatten_cons, ih, ← Head.read?_eq_some h]
  | case3 c rest h ih => rw [List.flatten_cons, ih]; rfl

/-- The places reached from `start` by stepping over the given units. -/
def boundariesFrom (start : Nat) : List Text → List Nat
  | [] => [start]
  | u :: us => start :: boundariesFrom (start + u.length) us

/-- The places where a cursor may rest, ascending: the beginning, the places between two units and
the end. -/
def boundaries (t : Text) : List Nat :=
  boundariesFrom 0 (units t)

/-- A position, moved into the text and then back onto the nearest boundary. -/
def snap (t : Text) (position : Int) : Nat :=
  let inside := min position.toNat t.length
  ((boundaries t).takeWhile (· ≤ inside)).getLastD 0

/-- The boundary before the one on which a cursor rests, if there is one. -/
def boundaryBefore (t : Text) (cursor : Nat) : Nat :=
  let here := snap t cursor
  ((boundaries t).takeWhile (· < here)).getLastD 0

/-- The boundary after the one on which a cursor rests, if there is one. -/
def boundaryAfter (t : Text) (cursor : Nat) : Nat :=
  let here := snap t cursor
  ((boundaries t).find? (here < ·)).getD here

end PocketCalculator
