import PocketCalculator.Buffer.Edit
import PocketCalculator.Proofs.Template.Slots
import PocketCalculator.Proofs.Number.Reading

/-! # Typing plain arithmetic

Digits, points, signs, operators, parentheses and percents leave no slot open, so what is typed
behind them comes to stand at the end (`insert_atEnd`, `insert_typed`).  The single zero of the
cleared buffer is the exception: a digit or a point takes its place.  `typeChar` is one such step on
the text, and `foldl_typeChar` says what the text is in the end: zeros in front of a number are
lost, and a zero comes to stand in front of everything but a number. -/

namespace PocketCalculator

/-! ### Characters -/

/-- The characters of plain arithmetic. -/
def arithmeticChars : Text :=
  ['0', '1', '2', '3', '4', '5', '6', '7', '8', '9', '.', '+', '-', '×', '÷', '(', ')', '%']

theorem forall_arithmetic {P : Char → Prop} [DecidablePred P]
    (h : arithmeticChars.all (fun c => P c) = true) {c : Char} (hc : c ∈ arithmeticChars) : P c :=
  of_decide_eq_true (List.all_eq_true.1 h c hc)

theorem mem_arithmeticChars_plain {c : Char} (hc : isPlainNumeralChar c = true) :
    c ∈ arithmeticChars := by
  have key : plainNumeralChars.all (· ∈ arithmeticChars) = true := by decide
  exact forall_plain key hc

theorem not_subset_of_arithmetic {p t : Text} (hp : p.any (· ∉ arithmeticChars) = true)
    (ht : t ⊆ arithmeticChars) : ¬p ⊆ t := by
  intro hs
  obtain ⟨c, hc, hn⟩ := List.any_eq_true.1 hp
  exact of_decide_eq_true hn (ht (hs hc))

theorem Template.ofText?_eq_none {t : Text} (ho : '(' ∉ t) (hb : blankSymbol ∉ t) :
    ofText? t = none := by
  have key : ∀ m ∈ Template.all, '(' ∈ m.text ∨ blankSymbol ∈ m.text := by decide
  refine List.find?_eq_none.2 fun m hm heq => ?_
  have ht : m.text = t := of_decide_eq_true heq
  rcases key m hm with h | h
  · exact ho (ht ▸ h)
  · exact hb (ht ▸ h)

theorem slots_of_arithmetic {t : Text} (ht : t ⊆ arithmeticChars) : slots t = [] := by
  have key : ∀ kind ∈ SlotKind.inOrder, ∀ p ∈ kind.patterns,
      p.any (· ∉ arithmeticChars) = true := by decide
  have hslash : '/' ∉ arithmeticChars := by decide
  exact slots_eq_nil (fun h => hslash (ht h)) fun kind hk p hp =>
    not_subset_of_arithmetic (key kind hk p hp) ht

theorem slotNear_of_arithmetic {t : Text} (ht : t ⊆ arithmeticChars) (position : Int) :
    slotNear t position = false := by
  rw [slotNear, slots_of_arithmetic ht, List.any_nil]

/-! ### One character -/

/-- One character typed at the end of a text.  A digit or a point takes the place of a single zero.
-/
def typeChar (u : Text) (c : Char) : Text :=
  if u = clearedText && isPlainNumeralChar c then [c] else u ++ [c]

/-- The buffer with the cursor at the end of a text, and no fraction being edited. -/
def Buffer.atEnd (u : Text) : Buffer :=
  ⟨u, u.length, .idle⟩

namespace Buffer

theorem replace_atEnd {u t : Text} (ht : t ≠ []) : (atEnd u).replace t t.length = atEnd t := by
  rw [replace, if_neg ht, snap_length]
  rfl

theorem splice_atEnd (u : Text) {t : Text} (ht : t ≠ []) :
    (atEnd u).splice (atEnd u).cursor (atEnd u).cursor t = atEnd (u ++ t) := by
  have h : (atEnd u).text.take (atEnd u).cursor ++ t ++ (atEnd u).text.drop (atEnd u).cursor =
      u ++ t := by
    simp [atEnd]
  have hn : (atEnd u).cursor + t.length = (u ++ t).length := by
    simp [atEnd]
  rw [splice, h, hn]
  exact replace_atEnd (List.append_ne_nil_of_right_ne_nil u ht)

/-- Behind plain arithmetic a text that is no template comes to stand at the end. -/
theorem insert_atEnd {u t : Text} (hu : u ⊆ arithmeticChars) (ht : t ≠ [])
    (htemplate : Template.ofText? t = none) :
    (atEnd u).insert t =
      atEnd (if u = clearedText && replacesZero t then t else u ++ t) := by
  have hadopts : (atEnd u).adoptsOperand t = false := by
    rw [adoptsOperand, htemplate]
    rfl
  have hidle : (if isOperatorText t then (atEnd u).withFraction .idle else atEnd u) = atEnd u := by
    split <;> rfl
  have hfraction : t ≠ Template.fraction.text := by
    rintro rfl
    exact absurd htemplate (by decide)
  have hnear : slotNear (atEnd u).text (atEnd u).cursor = false := slotNear_of_arithmetic hu _
  rw [insert, if_neg ht, hnear, Bool.and_false, if_neg Bool.false_ne_true, insertPlain, hidle,
    hadopts, if_neg hfraction]
  dsimp only
  rw [if_neg Bool.false_ne_true]
  have htext : (atEnd u).text = u := rfl
  rw [htext]
  split
  · exact replace_atEnd ht
  · exact splice_atEnd u ht

theorem replacesZero_of_arithmetic {c : Char} (hc : c ∈ arithmeticChars) :
    replacesZero [c] = isPlainNumeralChar c := by
  have key : arithmeticChars.all (fun c => replacesZero [c] = isPlainNumeralChar c) = true := by
    decide
  exact forall_arithmetic key hc

/-- A character of plain arithmetic comes to stand at the end. -/
theorem insert_typed {u : Text} {c : Char} (hu : u ⊆ arithmeticChars) (hc : c ∈ arithmeticChars) :
    (atEnd u).insert [c] = atEnd (typeChar u c) := by
  have key : arithmeticChars.all (fun c => (Template.ofText? [c]).isNone = true) = true := by
    decide
  have htemplate := Option.isNone_iff_eq_none.1 (forall_arithmetic key hc)
  rw [insert_atEnd hu (List.cons_ne_nil c []) htemplate, replacesZero_of_arithmetic hc, typeChar]

end Buffer

/-! ### Whole texts -/

/-- What a text becomes when its characters are typed into a cleared buffer. -/
def typedText (e : Text) : Text :=
  let r := e.dropWhile (· == '0')
  if r.head?.any isPlainNumeralChar then r else '0' :: r

theorem foldl_typeChar_append {u : Text} (h0 : u ≠ []) (hu : u ≠ clearedText) (e : Text) :
    e.foldl typeChar u = u ++ e := by
  induction e generalizing u with
  | nil => exact (List.append_nil u).symm
  | cons c e ih =>
      have hstep : typeChar u c = u ++ [c] := by
        simp [typeChar, hu]
      have hne : u ++ [c] ≠ clearedText := by
        intro h
        have hlen := congrArg List.length h
        have hpos := List.length_pos_iff.2 h0
        rw [List.length_append, clearedText, List.length_singleton, List.length_singleton] at hlen
        omega
      rw [List.foldl_cons, hstep, ih (by simp) hne, List.append_assoc]
      rfl

theorem foldl_typeChar (e : Text) : e.foldl typeChar clearedText = typedText e := by
  induction e with
  | nil => rfl
  | cons c e ih =>
      rw [List.foldl_cons]
      by_cases hc : c = '0'
      · subst hc
        exact ih
      · have hdrop : (c :: e).dropWhile (· == '0') = c :: e := by
          simp [hc]
        rw [typedText, hdrop, typeChar, List.head?_cons, Option.any_some]
        cases hn : isPlainNumeralChar c with
        | true =>
            have hne : [c] ≠ clearedText := fun h => hc (List.cons.inj h).1
            exact foldl_typeChar_append (List.cons_ne_nil c []) hne e
        | false =>
            have hne : ['0', c] ≠ clearedText := by
              intro h
              cases h
            exact foldl_typeChar_append (List.cons_ne_nil '0' [c]) hne e

end PocketCalculator
