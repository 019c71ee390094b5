import PocketCalculator.Text.Blank

/-! # Texts

A text is a list of characters: every index, length and padding counts characters.  This module
holds the operations that know nothing about calculators: reading off a known beginning, cutting
blanks, splitting into words and lines, padding and slicing.

`after?_eq_some_iff`, `startsWith_iff` and `endsWith_iff` say what it means that a text begins or
ends with another one, and `takeWhile_append` and `head?_dropWhile` how far a run goes. -/

namespace PocketCalculator

/-- A sequence of characters. -/
abbrev Text := List Char

namespace Text

/-! ### Beginnings -/

/-- What follows `head` in a text that begins with it. -/
def after? : (head : Text) → Text → Option Text
  | [], t => some t
  | _ :: _, [] => none
  | c :: head, d :: t => if c = d then after? head t else none

theorem after?_eq_some_iff {head t rest : Text} :
    after? head t = some rest ↔ t = head ++ rest := by
  induction head generalizing t with
  | nil => simp [after?]
  | cons c head ih =>
    cases t with
    | nil => simp [after?]
    | cons d t =>
      by_cases h : c = d
      · simp [after?, h, ih]
      · simp only [after?, h, if_false, reduceCtorEq, List.cons_append, List.cons.injEq, false_iff]
        exact fun e => h e.1.symm

/-- Whether a text begins with `head`. -/
def startsWith (t head : Text) : Bool :=
  (after? head t).isSome

/-- Whether a text ends with `tail`. -/
def endsWith (t tail : Text) : Bool :=
  startsWith t.reverse tail.reverse

theorem startsWith_iff {t head : Text} : t.startsWith head = true ↔ head <+: t := by
  rw [startsWith, Option.isSome_iff_exists]
  exact exists_congr fun rest => after?_eq_some_iff.trans eq_comm

theorem endsWith_iff {t tail : Text} : t.endsWith tail = true ↔ tail <:+ t := by
  rw [endsWith, startsWith_iff, List.reverse_prefix]

/-! ### Runs -/

/-- A run that a text begins with ends where other characters follow. -/
theorem takeWhile_append {p : Char → Bool} {run rest : Text} (hrun : ∀ c ∈ run, p c = true)
    (hrest : ∀ c ∈ rest.head?, p c = false) :
    (run ++ rest).takeWhile p = run ∧ (run ++ rest).dropWhile p = rest := by
  rw [List.takeWhile_append_of_pos hrun, List.dropWhile_append_of_pos hrun]
  cases rest with
  | nil => exact ⟨List.append_nil run, rfl⟩
  | cons c rest =>
    have hc : p c = false := hrest c rfl
    rw [List.takeWhile_cons_of_neg (by simp [hc]), List.dropWhile_cons_of_neg (by simp [hc])]
    exact ⟨List.append_nil run, rfl⟩

/-- Behind the run that a text begins with there are other characters. -/
theorem head?_dropWhile (p : Char → Bool) (t : Text) :
    ∀ c ∈ (t.dropWhile p).head?, p c = false := by
  intro c hc
  have hnot := List.head?_dropWhile_not p t
  rw [Option.mem_def.1 hc] at hnot
  simpa using hnot

/-! ### Blanks -/

/-- The text without the blanks in front. -/
def stripLeft (t : Text) : Text :=
  t.dropWhile isBlank

/-- The text without the blanks behind. -/
def stripRight (t : Text) : Text :=
  (t.reverse.dropWhile isBlank).reverse

/-- The text without the blanks at either end. -/
def strip (t : Text) : Text :=
  stripRight (stripLeft t)

/-- The maximal pieces without blanks, in order. -/
def words (t : Text) : List Text :=
  (t.splitOnP isBlank).filter (· ≠ [])

/-- The lines of a text.  Only the line feed ends a line; a last line may lack it. -/
def lines (t : Text) : List Text :=
  let pieces := t.splitOnP (· == '\n')
  match pieces.getLast? with
  | some [] => pieces.dropLast
  | _ => pieces

/-! ### Padding and slicing -/

/-- The text, filled up behind with spaces to at least `width` characters. -/
def padRight (width : Nat) (t : Text) : Text :=
  t ++ List.replicate (width - t.length) ' '

/-- The text, filled up in front with `c` to at least `width` characters. -/
def padLeft (width : Nat) (c : Char) (t : Text) : Text :=
  List.replicate (width - t.length) c ++ t

/-- Where a cursor falls in a text of `n` characters.  A negative cursor counts from the end, and
a cursor that lies outside is moved to the nearer end. -/
def place (n : Nat) (cursor : Int) : Nat :=
  if cursor < 0 then (cursor + n).toNat else min cursor.toNat n

/-- The text without `c` at its end, as often as it stands there. -/
def dropTrailing (c : Char) (t : Text) : Text :=
  (t.reverse.dropWhile (· == c)).reverse

end Text
end PocketCalculator
