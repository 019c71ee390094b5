import PocketCalculator.Proofs.Buffer.Editing
import PocketCalculator.Proofs.Template.Separation

/-! # What a filling changes

A filling puts its value into the text at one place and keeps every other character, or it changes
nothing at all.  `Buffer.fill?` answers with a buffer only when the value has gone somewhere;
`Buffer.tryFill` does the same one write after the other, where the editing of a fraction begins
before its half is looked at.  The two agree (`Buffer.tryFill_eq`), because a fraction is entered
only for the sake of a blank half, which is then filled.

`Buffer.FillsAt` lists the places where the value may come to stand, and `Buffer.tryFill_spliced`
says what becomes of the text, the cursor and the editing of a fraction. -/

namespace PocketCalculator

/-! ### Values that fill a slot -/

theorem blank_not_mem_of_isFillValue {t : Text} (h : isFillValue t = true) : blankSymbol ∉ t := by
  unfold isFillValue at h
  rw [Bool.or_eq_true, beq_iff_eq] at h
  rcases h with rfl | h
  · decide
  · split at h
    · rename_i c
      rw [List.mem_singleton]
      rintro rfl
      exact absurd h (by decide)
    · cases h

theorem ne_nil_of_isFillValue {t : Text} (h : isFillValue t = true) : t ≠ [] := by
  rintro rfl
  cases h

namespace Buffer

variable {b b' : Buffer} {t : Text}

/-! ### One write after the other -/

/-- Fills or lengthens a half of a fraction, and tells whether it has. -/
def tryFillFraction (b : Buffer) (f : FractionSpan) (t : Text) : Bool × Buffer :=
  let h := b.halfToFill f
  -- the fraction is entered before the half is looked at
  let b := if b.fraction.active then b else b.withFraction (.editing h)
  if f.half h = [blankSymbol] then (true, b.splice (f.halfStart h) (f.halfStop h) t)
  else if t = ansName ∨ f.half h = ansName then (false, b)
  else (true, b.splice (f.halfStop h) (f.halfStop h) t)

/-- Puts a value into the first open slot that it can go to, and tells whether it has. -/
def tryFill (b : Buffer) (t : Text) : Bool × Buffer :=
  if isFillValue t then
    match b.slotToFill? t with
    | none => (false, b)
    | some (.simple _ s) => (true, b.fillSimple s t)
    | some (.fraction f) => b.tryFillFraction (b.fractionToFill f) t
  else (false, b)

theorem tryFillFraction_eq {f : FractionSpan} (hf : .fraction f ∈ slots b.text) (t : Text) :
    b.tryFillFraction (b.fractionToFill f) t =
      ((b.fillFraction? (b.fractionToFill f) t).isSome,
        (b.fillFraction? (b.fractionToFill f) t).getD b) := by
  have hspec := fractionToFill_spec hf
  generalize b.fractionToFill f = g at hspec ⊢
  rw [tryFillFraction, fillFraction?]
  split
  · rfl
  · rename_i hblank
    rcases hspec with ⟨hactive, -⟩ | ⟨-, -, hb⟩
    · rw [if_pos hactive]
      split <;> rfl
    · exact absurd hb hblank

/-- A filling answers with the buffer after its writes, and when it fills nothing no write is left
behind. -/
theorem tryFill_eq (b : Buffer) (t : Text) :
    b.tryFill t = ((b.fill? t).isSome, b.edited (.fill t)) := by
  rw [edited, tryFill, fill?]
  cases isFillValue t with
  | false => rfl
  | true =>
      cases hslot : b.slotToFill? t with
      | none => rfl
      | some slot =>
          cases slot with
          | simple kind s => rfl
          | fraction f => exact tryFillFraction_eq (List.mem_of_find?_eq_some hslot) t

/-! ### Where the value comes to stand -/

/-- The places where a value may come to stand in a buffer, between `front` and `back`, and what it
takes the place of: a blank, or nothing between the parentheses of an empty circular function and
behind the number in the half that has the focus, of the fraction to be edited at the cursor. -/
inductive FillsAt (b : Buffer) : (front middle back : Text) → Prop where
  | blank {front back} : FillsAt b front [blankSymbol] back
  | parentheses {front back} (f : CircularFunction) :
      FillsAt b (front ++ (f.text ++ ['('])) [] (')' :: back)
  | behindFocus {f front back} (hactive : b.fraction.active = true)
      (hfound : findFraction? b.text (some b.cursor) = some f)
      (hnumber : f.half b.fraction.focus ≠ [] ∧
        ∀ c ∈ f.half b.fraction.focus, isPlainNumeralChar c = true)
      (hstop : front.length = f.halfStop b.fraction.focus) : FillsAt b front [] back

theorem exists_of_gap {start stop : Nat} (h : Gap b.text start stop) :
    ∃ front middle back, b.text = front ++ middle ++ back ∧ b.FillsAt front middle back ∧
      start = front.length ∧ stop = (front ++ middle).length := by
  cases h with
  | @blank front back h =>
      refine ⟨front, [blankSymbol], back, ?_, .blank, rfl, ?_⟩
      · rw [h, List.append_assoc, List.singleton_append]
      · rw [List.length_append, List.length_singleton]
  | @parentheses front back f h =>
      refine ⟨front ++ (f.text ++ ['(']), [], ')' :: back, ?_, .parentheses f, ?_, ?_⟩
      · rw [h, List.append_nil]
      · simp
      · simp

theorem FillPlace.exists_parts {start stop : Nat} (h : b.FillPlace start stop) :
    ∃ front middle back, b.text = front ++ middle ++ back ∧ b.FillsAt front middle back ∧
      start = front.length ∧ stop = (front ++ middle).length := by
  cases h with
  | gap h => exact exists_of_gap h
  | @behindFocus f hactive hfound hblank hans =>
      have hmem := mem_fractions_of_findFraction? hfound
      have hstop := le_length_of_mem_boundaries
        (FractionSpan.halfStop_mem_boundaries hmem b.fraction.focus)
      have hlength := List.length_take_of_le hstop
      refine ⟨b.text.take (f.halfStop b.fraction.focus), [],
        b.text.drop (f.halfStop b.fraction.focus), ?_, ?_, hlength.symm, ?_⟩
      · rw [List.append_nil, List.take_append_drop]
      · exact .behindFocus hactive hfound
          ((FractionSpan.isHalf hmem _).isPlainNumeralChar hblank hans) hlength
      · rw [List.append_nil, hlength]

theorem splice_parts {front middle back : Text} (ht : b.text = front ++ middle ++ back) (v : Text) :
    b.splice front.length (front ++ middle).length v =
      b.replace (front ++ v ++ back) (front ++ v).length := by
  rw [splice, ht, List.drop_left, List.append_assoc front middle back, List.take_left,
    ← List.length_append]

/-- A value that fills a slot stands between the texts on both sides of its place, with the cursor
behind it. -/
theorem exists_parts_of_fill? {v : Text} (h : b.fill? v = some b') : isFillValue v = true ∧
    ∃ front middle back, b.text = front ++ middle ++ back ∧ b.FillsAt front middle back ∧
      b'.text = front ++ v ++ back ∧ b'.cursor = snap b'.text (front ++ v).length := by
  obtain ⟨hvalue, e, start, stop, hplace, rfl⟩ := exists_fillPlace h
  obtain ⟨front, middle, back, htext, hat, rfl, rfl⟩ := hplace.exists_parts
  have hne : front ++ v ++ back ≠ [] := by simp [ne_nil_of_isFillValue hvalue]
  have hsplice := splice_parts (b := b.withFraction e) htext v
  refine ⟨hvalue, front, middle, back, htext, hat, ?_⟩
  rw [hsplice, replace, if_neg hne]
  exact ⟨rfl, rfl⟩

/-- A filling changes nothing, or it puts a value that may fill a slot into the text at one of the
places for it.  The other characters stay in their order, no blank is added, and the cursor comes to
the boundary at the end of the value or before it. -/
theorem tryFill_spliced (b : Buffer) (v : Text) :
    let r := b.tryFill v
    r = ((b.fill? v).isSome, b.edited (.fill v)) ∧
      (r.1 = false → r.2 = b) ∧
      (r.1 = true → isFillValue v = true ∧
        ∃ front middle back, b.text = front ++ middle ++ back ∧ b.FillsAt front middle back ∧
          r.2.text = front ++ v ++ back ∧
          r.2.text.count blankSymbol ≤ b.text.count blankSymbol ∧
          r.2.cursor = snap r.2.text (front ++ v).length) := by
  intro r
  have hr : r = ((b.fill? v).isSome, b.edited (.fill v)) := b.tryFill_eq v
  refine ⟨hr, ?_⟩
  rw [hr, edited]
  cases hfill : b.fill? v with
  | none => exact ⟨fun _ => rfl, fun htrue => absurd htrue Bool.false_ne_true⟩
  | some b' =>
      refine ⟨fun hfalse => absurd hfalse.symm Bool.false_ne_true, fun _ => ?_⟩
      obtain ⟨hvalue, front, middle, back, htext, hat, htext', hcursor⟩ :=
        exists_parts_of_fill? hfill
      refine ⟨hvalue, front, middle, back, htext, hat, htext', ?_, hcursor⟩
      show b'.text.count blankSymbol ≤ _
      have hv := List.count_eq_zero.2 (blank_not_mem_of_isFillValue hvalue)
      rw [htext, htext']
      simp only [List.count_append, hv]
      omega

-- the last result is not joined to the number in the half with the focus
example :
    let b : Buffer := ⟨"2/□".toList, 1, .editing .numerator⟩
    b.tryFill ansName = (false, b) ∧ (b.tryFill ['5']).2.text = "25/□".toList := by
  decide

end Buffer
end PocketCalculator
