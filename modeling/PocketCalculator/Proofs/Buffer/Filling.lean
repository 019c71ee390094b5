import PocketCalculator.Buffer.Fill
import PocketCalculator.Proofs.Template.Slots

/-! # Where a value goes

A value that fills a slot comes to stand in the place of a blank, between the parentheses of an
empty circular function (`Gap`), or behind a half of a fraction, which it lengthens
(`Buffer.FillPlace`, and without regard to the cursor `OpenPlace`).  `Buffer.exists_fillPlace` says
that there are no others, so what is kept by a splice at an open place is kept by every filling. -/

namespace PocketCalculator

/-- The stretches of a text where an operand is missing. -/
inductive Gap (t : Text) : (start stop : Nat) → Prop where
  | blank {front back} (h : t = front ++ blankSymbol :: back) :
      Gap t front.length (front.length + 1)
  | parentheses {front back} (f : CircularFunction)
      (h : t = front ++ (f.text ++ ['(']) ++ ')' :: back) :
      Gap t (front.length + (f.text.length + 1)) (front.length + (f.text.length + 1))

/-- The stretches of a text that a value may take the place of. -/
inductive OpenPlace (t : Text) : (start stop : Nat) → Prop where
  | blank {front back} (h : t = front ++ blankSymbol :: back) :
      OpenPlace t front.length (front.length + 1)
  | parentheses {front back} (f : CircularFunction)
      (h : t = front ++ (f.text ++ ['(']) ++ ')' :: back) :
      OpenPlace t (front.length + (f.text.length + 1)) (front.length + (f.text.length + 1))
  | behindHalf {f} (hf : f ∈ fractions t) (h : Half) : OpenPlace t (f.halfStop h) (f.halfStop h)

theorem Gap.openPlace {t : Text} {start stop : Nat} (h : Gap t start stop) :
    OpenPlace t start stop := by
  cases h with
  | blank h => exact .blank h
  | parentheses f h => exact .parentheses f h

theorem gap_of_half {t : Text} {f : FractionSpan} {h : Half} (hf : f ∈ fractions t)
    (hb : f.half h = [blankSymbol]) : Gap t (f.halfStart h) (f.halfStop h) := by
  obtain ⟨front, back, rest, rfl, hs, hd⟩ := exists_of_mem_fractions hf
  cases h with
  | numerator =>
      simp only [FractionSpan.half] at hb
      have ht : front ++ f.numerator ++ '/' :: back = front ++ blankSymbol :: '/' :: back := by
        simp [hb]
      have hplace := Gap.blank ht
      simpa [FractionSpan.halfStop, FractionSpan.halfStart, FractionSpan.half, hb, hs] using hplace
  | denominator =>
      simp only [FractionSpan.half] at hb
      have ht : front ++ f.numerator ++ '/' :: back =
          (front ++ f.numerator ++ ['/']) ++ blankSymbol :: rest := by
        simp [(readHalf?_eq_some hd).1, hb]
      have hplace := Gap.blank ht
      simpa [FractionSpan.halfStop, FractionSpan.halfStart, FractionSpan.half, hb, hs,
        Nat.add_assoc] using hplace

theorem isFillValue_plain {c : Char} (hc : isPlainNumeralChar c = true) :
    isFillValue [c] = true ∧ [c] ≠ ['-'] := by
  rw [isPlainNumeralChar, Bool.or_eq_true] at hc
  constructor
  · rw [isFillValue, Bool.or_eq_true]
    exact .inr (by simpa [or_assoc] using hc.imp_right Or.inl)
  · rintro ⟨⟩
    exact absurd hc (by decide)

namespace Buffer

variable {b b' : Buffer} {t : Text}

theorem slotToFill?_eq_head? (ht : t ≠ ['-']) : b.slotToFill? t = (slots b.text).head? := by
  rw [slotToFill?, beq_eq_false_iff_ne.2 ht]
  cases slots b.text <;> rfl

section slot

variable {s : Span} {front p back : Text}

theorem drop_take_span (htext : b.text = front ++ p ++ back) (hstart : s.start = front.length)
    (hstop : s.stop = s.start + p.length) : (b.text.take s.stop).drop s.start = p := by
  rw [htext, hstop, hstart, ← List.length_append, List.take_left, List.drop_left]

/-- The first blank of a slot gives its place to the value. -/
theorem fillSimple_blank {p₁ p₂ : Text}
    (htext : b.text = front ++ (p₁ ++ blankSymbol :: p₂) ++ back)
    (hnot : blankSymbol ∉ p₁) (hstart : s.start = front.length)
    (hstop : s.stop = s.start + (p₁ ++ blankSymbol :: p₂).length) (t : Text) :
    b.fillSimple s t = b.splice (front ++ p₁).length ((front ++ p₁).length + 1) t := by
  have hidx : (p₁ ++ blankSymbol :: p₂).idxOf blankSymbol = p₁.length := by
    simp [List.idxOf_append, hnot]
  rw [fillSimple, drop_take_span htext hstart hstop]
  dsimp only
  rw [if_pos (by simp), hidx, hstart, List.length_append]

/-- In a slot without a blank, the value goes between the parentheses. -/
theorem fillSimple_parentheses {f : CircularFunction}
    (htext : b.text = front ++ (f.text ++ ['(', ')']) ++ back) (hstart : s.start = front.length)
    (hstop : s.stop = s.start + (f.text ++ ['(', ')']).length) (t : Text) :
    b.fillSimple s t =
      b.splice (front.length + (f.text.length + 1)) (front.length + (f.text.length + 1)) t := by
  have hnone : (f.text ++ ['(', ')']).contains blankSymbol = false := by
    rcases f with ⟨_ | _ | _, _ | _⟩ <;> decide
  have hlen : s.stop - 1 = front.length + (f.text.length + 1) := by
    rw [hstop, hstart, List.length_append]
    simp only [List.length_cons, List.length_nil]
    omega
  rw [fillSimple, drop_take_span htext hstart hstop]
  dsimp only
  rw [hnone, if_neg Bool.false_ne_true, hlen]

end slot

theorem exists_fillSimple {kind : SlotKind} {s : Span} (h : .simple kind s ∈ slots b.text)
    (t : Text) : ∃ start stop, Gap b.text start stop ∧ s.start ≤ start ∧ stop ≤ s.stop ∧
      b.fillSimple s t = b.splice start stop t := by
  obtain ⟨hkind, front, p, back, htext, hp, hstart, hstop⟩ := exists_of_mem_slots h
  rcases blank_mem_or_of_mem_patterns hkind hp with hb | ⟨f, rfl⟩
  · -- the first blank of the pattern parts the text
    obtain ⟨p₁, p₂, rfl, hnot⟩ := List.eq_append_cons_of_mem hb
    have ht : b.text = (front ++ p₁) ++ blankSymbol :: (p₂ ++ back) := by
      rw [htext]
      simp
    refine ⟨_, _, .blank ht, ?_, ?_, fillSimple_blank htext hnot hstart hstop t⟩
    · rw [hstart, List.length_append]
      exact Nat.le_add_right _ _
    · rw [hstop, hstart, List.length_append, List.length_append, List.length_cons]
      omega
  · have ht : b.text = front ++ (f.text ++ ['(']) ++ ')' :: back := by
      rw [htext]
      simp
    refine ⟨_, _, .parentheses f ht, ?_, ?_, fillSimple_parentheses htext hstart hstop t⟩
    · rw [hstart]
      exact Nat.le_add_right _ _
    · rw [hstop, hstart, List.length_append]
      simp only [List.length_cons, List.length_nil]
      omega

theorem half_halfToFill {f : FractionSpan} (hi : b.fraction.active = false)
    (hb : f.hasBlank = true) : f.half (b.halfToFill f) = [blankSymbol] := by
  rw [halfToFill, hi, if_neg Bool.false_ne_true]
  rw [FractionSpan.hasBlank, Bool.or_eq_true, beq_iff_eq, beq_iff_eq] at hb
  split
  · assumption
  · rename_i hn
    exact hb.resolve_left hn

/-- The stretches of its text that a value may take the place of in a buffer: where an operand is
missing, and behind the number in the half that has the focus, of the fraction to be edited at the
cursor. -/
inductive FillPlace (b : Buffer) : (start stop : Nat) → Prop where
  | gap {start stop} (h : Gap b.text start stop) : FillPlace b start stop
  | behindFocus {f} (hactive : b.fraction.active = true)
      (hfound : findFraction? b.text (some b.cursor) = some f)
      (hblank : f.half b.fraction.focus ≠ [blankSymbol]) (hans : f.half b.fraction.focus ≠ ansName) :
      FillPlace b (f.halfStop b.fraction.focus) (f.halfStop b.fraction.focus)

theorem FillPlace.openPlace {start stop : Nat} (h : b.FillPlace start stop) :
    OpenPlace b.text start stop := by
  cases h with
  | gap h => exact h.openPlace
  | behindFocus _ hfound => exact .behindHalf (mem_fractions_of_findFraction? hfound) _

/-- The fraction that a value goes to when the first open slot is the fraction `f`. -/
def fractionToFill (b : Buffer) (f : FractionSpan) : FractionSpan :=
  if b.fraction.active then (findFraction? b.text (some b.cursor)).getD f else f

/-- The fraction at the cursor comes before the first one while a fraction is being edited, and
otherwise the first one has a blank. -/
theorem fractionToFill_spec {f : FractionSpan} (h : .fraction f ∈ slots b.text) :
    b.fraction.active = true ∧
        findFraction? b.text (some b.cursor) = some (b.fractionToFill f) ∨
      b.fraction.active = false ∧ b.fractionToFill f ∈ fractions b.text ∧
        (b.fractionToFill f).half (b.halfToFill (b.fractionToFill f)) = [blankSymbol] := by
  obtain ⟨hmem, hblank⟩ := fraction_mem_slots_iff.1 h
  rw [fractionToFill]
  cases hactive : b.fraction.active with
  | true =>
      obtain ⟨g, hg⟩ : ∃ g, findFraction? b.text (some b.cursor) = some g := by
        rw [← Option.ne_none_iff_exists', ne_eq, findFraction?_eq_none_iff]
        exact List.ne_nil_of_mem hmem
      rw [hg]
      exact .inl ⟨rfl, rfl⟩
  | false =>
      rw [if_neg Bool.false_ne_true]
      exact .inr ⟨rfl, hmem, half_halfToFill hactive hblank⟩

theorem exists_of_fillFraction? {f : FractionSpan} (hf : .fraction f ∈ slots b.text)
    (h : b.fillFraction? (b.fractionToFill f) t = some b') : ∃ e start stop,
      b.FillPlace start stop ∧ b' = (b.withFraction e).splice start stop t := by
  have hspec := fractionToFill_spec hf
  generalize b.fractionToFill f = g at h hspec
  have hmem : g ∈ fractions b.text := by
    rcases hspec with ⟨-, hfound⟩ | ⟨-, hmem, -⟩
    · exact mem_fractions_of_findFraction? hfound
    · exact hmem
  unfold fillFraction? at h
  dsimp only at h
  -- the half that is filled is the one that is edited afterwards
  obtain ⟨e, he⟩ : ∃ e, (if b.fraction.active = true then b
      else b.withFraction (.editing (b.halfToFill g))) = b.withFraction e := by
    split
    · exact ⟨b.fraction, rfl⟩
    · exact ⟨_, rfl⟩
  rw [he] at h
  split at h
  · rename_i hblank
    cases h
    exact ⟨e, _, _, .gap (gap_of_half hmem hblank), rfl⟩
  · rename_i hblank
    split at h
    · cases h
    · rename_i hans
      cases h
      rcases hspec with ⟨hactive, hfound⟩ | ⟨-, -, hb⟩
      · have hfocus : b.halfToFill g = b.fraction.focus := by rw [halfToFill, if_pos hactive]
        rw [hfocus] at hblank hans ⊢
        exact ⟨e, _, _, .behindFocus hactive hfound hblank fun ha => hans (.inr ha), rfl⟩
      · exact absurd hb hblank

/-- A value that fills a slot comes to stand at one of the places for it. -/
theorem exists_fillPlace (h : b.fill? t = some b') : isFillValue t = true ∧
    ∃ e start stop, b.FillPlace start stop ∧ b' = (b.withFraction e).splice start stop t := by
  unfold fill? at h
  split at h
  · rename_i hvalue
    refine ⟨hvalue, ?_⟩
    split at h
    · cases h
    · rename_i kind s hslot
      cases h
      obtain ⟨start, stop, hplace, -, -, hs⟩ :=
        exists_fillSimple (List.mem_of_find?_eq_some hslot) t
      exact ⟨b.fraction, start, stop, .gap hplace, hs⟩
    · rename_i f hslot
      exact exists_of_fillFraction? (List.mem_of_find?_eq_some hslot) h
  · cases h

theorem exists_of_fill? (h : b.fill? t = some b') : isFillValue t = true ∧
    ∃ e start stop, OpenPlace b.text start stop ∧
      b' = (b.withFraction e).splice start stop t := by
  obtain ⟨hvalue, e, start, stop, hplace, hb'⟩ := exists_fillPlace h
  exact ⟨hvalue, e, start, stop, hplace.openPlace, hb'⟩

end Buffer
end PocketCalculator
