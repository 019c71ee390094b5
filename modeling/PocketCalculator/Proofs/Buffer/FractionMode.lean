import PocketCalculator.Proofs.Session.Presses
import PocketCalculator.Proofs.Buffer.Editing

/-! # Fraction mode

While a fraction is being edited, the text should have a fraction to edit.  `Buffer.replace` sees to
this, and every text enters a buffer through it; but the insertion of a fraction turns the mode on
afterwards, without another look.  A fraction that is inserted behind a value takes the value for
its numerator, and when a parenthesis or a suffix ends the value, the text has a bar with an empty
denominator and no fraction.

So the mode may stay on beside such a bar (`HasStrandedBar`) but nowhere else: `Buffer.Editable`
holds after every press, and `Session.presses_editable` after every sequence of presses.
`Session.presses_not_editable` is a sequence that ends beside such a bar. -/

namespace PocketCalculator

/-! ### Bars without a numerator -/

/-- Whether a text ends with a value that is no half of a fraction. -/
def endsWithNoHalf (t : Text) : Bool :=
  t.getLast?.any (· ∈ [')', '²', '³', '!', '%']) || t.endsWith inverseMark

/-- Somewhere a bar with an empty denominator stands behind a value that is no half. -/
def HasStrandedBar (t : Text) : Prop :=
  ∃ front back, t = front ++ '/' :: blankSymbol :: back ∧ endsWithNoHalf front = true

/-- A bar with an empty denominator makes a fraction with the half in front of it. -/
theorem fractions_ne_nil_of_half {front half back : Text}
    (h : readHalf? (half ++ '/' :: blankSymbol :: back) =
      some (half, '/' :: blankSymbol :: back)) :
    fractions (front ++ half ++ '/' :: blankSymbol :: back) ≠ [] := by
  rw [List.append_assoc]
  refine fractions_ne_nil ?_
  simp [readFraction?, h, Text.after?, readHalf?_blank]

/-- A bar with an empty denominator behind a value makes a fraction or is stranded. -/
theorem fractions_ne_nil_of_endsWithValue {front : Text} (h : Buffer.endsWithValue front = true)
    (back : Text) :
    fractions (front ++ '/' :: blankSymbol :: back) ≠ [] ∨ endsWithNoHalf front = true := by
  simp only [Buffer.endsWithValue, Bool.or_eq_true, Option.any_eq_true, Buffer.endsValue,
    decide_eq_true_eq] at h
  rcases h with (⟨c, hc, hvalue⟩ | hinverse) | hans
  · obtain ⟨front, rfl⟩ := List.getLast?_eq_some_iff.1 hc
    by_cases hn : isPlainNumeralChar c = true
    · refine .inl (fractions_ne_nil_of_half ?_)
      simp [readHalf?_of_numeral hn, isPlainNumeralChar, isAsciiDigit]
    by_cases hb : c = blankSymbol
    · subst hb
      exact .inl (fractions_ne_nil_of_half (readHalf?_blank _))
    · -- what is left are the parenthesis and the suffixes
      refine .inr ?_
      simp only [isPlainNumeralChar, Bool.or_eq_true, beq_iff_eq, not_or] at hn
      simp_all [endsWithNoHalf]
  · exact .inr (by simp [endsWithNoHalf, hinverse])
  · obtain ⟨front, rfl⟩ := Text.endsWith_iff.1 hans
    exact .inl (fractions_ne_nil_of_half (readHalf?_ansName _))

theorem fractions_template_ne_nil (front back : Text) :
    fractions (front ++ Template.fraction.text ++ back) ≠ [] := by
  have h := @fractions_ne_nil_of_half front [blankSymbol] back (readHalf?_blank _)
  simpa [Template.text] using h

/-! ### Buffers -/

namespace Buffer

/-- Fraction mode is off unless there is a fraction to edit or a stranded bar. -/
def Editable (b : Buffer) : Prop :=
  b.fraction.active = true → fractions b.text ≠ [] ∨ HasStrandedBar b.text

variable {b b' : Buffer} {t : Text}

theorem editable_idle (h : b.fraction = .idle) : b.Editable := by
  intro hactive
  rw [h] at hactive
  cases hactive

theorem editable_replace (b : Buffer) (t : Text) (cursor : Int) :
    (b.replace t cursor).Editable := by
  unfold replace
  split
  · exact editable_idle rfl
  · intro hactive
    left
    intro hnone
    dsimp only at hactive hnone
    rw [hnone, List.isEmpty_nil, Bool.and_true] at hactive
    split at hactive
    · cases hactive
    · contradiction

theorem editable_splice (b : Buffer) (start stop : Nat) (t : Text) :
    (b.splice start stop t).Editable :=
  b.editable_replace _ _

/-! ### One operation -/

theorem editable_of_fill? (h : b.fill? t = some b') : b'.Editable := by
  obtain ⟨-, e, start, stop, -, rfl⟩ := exists_of_fill? h
  exact editable_splice _ _ _ _

theorem editable_template (b : Buffer) (start stop : Nat) (e : FractionEdit) :
    ((b.splice start stop Template.fraction.text).withFraction e).Editable := by
  intro _
  left
  show fractions (b.splice start stop Template.fraction.text).text ≠ []
  rw [text_splice _ _ _ (by simp [Template.text])]
  exact fractions_template_ne_nil _ _

/-- A fraction that takes the value in front of the cursor may be left without a numerator. -/
theorem editable_adopted (b : Buffer) (h : endsWithValue b.before = true) (e : FractionEdit) :
    ((b.splice b.cursor b.cursor ['/', blankSymbol]).withFraction e).Editable := by
  intro _
  show fractions (b.splice b.cursor b.cursor ['/', blankSymbol]).text ≠ [] ∨
    HasStrandedBar (b.splice b.cursor b.cursor ['/', blankSymbol]).text
  rw [text_splice _ _ _ (List.cons_ne_nil _ _)]
  have ht : b.text.take b.cursor ++ ['/', blankSymbol] ++ b.text.drop b.cursor =
      b.before ++ '/' :: blankSymbol :: b.after := by
    simp [before, after]
  rw [ht]
  rcases fractions_ne_nil_of_endsWithValue h b.after with hf | hn
  · exact .inl hf
  · exact .inr ⟨b.before, b.after, rfl, hn⟩

theorem editable_insertPlain (b : Buffer) (t : Text) : (b.insertPlain t).Editable := by
  unfold insertPlain
  generalize (if isOperatorText t then b.withFraction .idle else b) = b
  dsimp only
  by_cases ht : t = Template.fraction.text
  · rw [if_pos ht]
    cases hadopt : b.adoptsOperand t with
    | true =>
        simp only [adoptsOperand, Bool.and_eq_true, decide_eq_true_eq] at hadopt
        rw [if_pos rfl, if_neg (by simp [hadopt.1.2])]
        subst ht
        exact b.editable_adopted hadopt.2 _
    | false =>
        rw [if_neg Bool.false_ne_true, ht]
        split
        · have hput := editable_template b 0 b.text.length
            (.editing (if false = true then .denominator else .numerator))
          simpa [splice] using hput
        · exact b.editable_template _ _ _
  · have hput (inserted : Text) :
        (if b.text = clearedText && replacesZero inserted then b.replace inserted inserted.length
          else b.splice b.cursor b.cursor inserted).Editable := by
      split
      · exact b.editable_replace _ _
      · exact b.editable_splice _ _ _
    rw [if_neg ht]
    exact hput _

theorem Editable.insert (h : b.Editable) (t : Text) : (b.insert t).Editable := by
  unfold Buffer.insert
  split
  · exact h
  · split
    · rename_i filled hfilled
      split at hfilled
      · exact editable_of_fill? hfilled
      · cases hfilled
    · exact b.editable_insertPlain t

theorem editable_deleteUnit (b : Buffer) : b.deleteUnit.Editable := by
  unfold deleteUnit
  dsimp only
  repeat' split
  all_goals exact b.editable_replace _ _

theorem Editable.delete (h : b.Editable) : b.delete.Editable := by
  unfold Buffer.delete
  split
  · exact h
  · split
    · rename_i start template hbefore
      by_cases ht : template = .fraction
      · subst ht
        exact b.editable_template _ _ _
      · simp only [if_neg ht]
        exact b.editable_splice _ _ _
    · split
      · exact b.editable_splice _ _ _
      · exact b.editable_deleteUnit

theorem Editable.moveHalf (h : b.Editable) (first : Half) : (b.moveHalf first).Editable := by
  unfold Buffer.moveHalf
  split
  · exact h
  · rename_i f hf
    intro _
    left
    intro hnone
    rw [findFraction?_eq_none_iff.2 hnone] at hf
    cases hf

theorem Editable.move (h : b.Editable) (d : Direction) : (b.move d).Editable := by
  cases d with
  | left => exact h
  | right => exact h
  | up => exact h.moveHalf .numerator
  | down => exact h.moveHalf .denominator

theorem Editable.toggleSign (h : b.Editable) : b.toggleSign.Editable := by
  unfold Buffer.toggleSign
  dsimp only
  split
  · exact h
  · split
    · exact b.editable_replace _ _
    · exact b.editable_replace _ _

end Buffer

/-! ### Key presses -/

namespace Session

variable {p : Profile} {s s' : Session} {k : Key} {fault : Option FormatFault}

theorem editable_of_pressed (hs : s.buffer.Editable) (h : Pressed p s k s' fault) :
    s'.buffer.Editable := by
  cases h with
  | typed ht => exact hs.insert _
  | moved d => exact hs.move d
  | deleted => exact hs.delete
  | signed => exact hs.toggleSign
  | cleared => exact Buffer.editable_idle rfl
  | shown hk hx ht => exact Buffer.editable_idle rfl
  | _ => exact hs

/-- The session after a sequence of presses, whether or not some of them are stopped. -/
def presses (p : Profile) (s : Session) (keys : List Key) : Session :=
  keys.foldl (fun s k => (s.press p k).1) s

theorem editable_presses (hs : s.buffer.Editable) (keys : List Key) :
    (s.presses p keys).buffer.Editable := by
  induction keys generalizing s with
  | nil => exact hs
  | cons k keys ih => exact ih (editable_of_pressed hs (pressed_press p s k))

/-- In every session that key presses lead to, fraction mode is on only with a fraction to edit, or
beside a bar that was put behind a value that is no half of a fraction. -/
theorem presses_editable (p : Profile) (keys : List Key) :
    let b := ((start p).presses p keys).buffer
    b.fraction.active = true → findFraction? b.text none ≠ none ∨ HasStrandedBar b.text := by
  intro b hactive
  rw [ne_eq, findFraction?_eq_none_iff]
  exact editable_presses (Buffer.editable_idle rfl) keys hactive

/-- A fraction that takes a number for its numerator. -/
theorem presses_editable_number :
    let p : Profile := ⟨.standard, .ok Settings.defaults⟩
    let b := ((start p).presses p [.digit 5, .function .fraction]).buffer
    b.fraction.active = true ∧
      (findFraction? b.text none ≠ none ∨ HasStrandedBar b.text) := by
  intro p b
  have hactive : b.fraction.active = true := by decide
  exact ⟨hactive, presses_editable p _ hactive⟩

/-- A fraction that takes a percentage for its numerator is none. -/
theorem presses_not_editable :
    let p : Profile := ⟨.standard, .ok Settings.defaults⟩
    let b := ((start p).presses p [.digit 5, .percent, .function .fraction]).buffer
    b.text = "5%/□".toList ∧ b.fraction.active = true ∧ findFraction? b.text none = none := by
  decide +kernel

end Session
end PocketCalculator
