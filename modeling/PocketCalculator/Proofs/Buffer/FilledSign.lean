import PocketCalculator.Proofs.Buffer.Editing
import PocketCalculator.Proofs.Template.Separation

/-! # A sign in an open slot

A sign is no half of a fraction, so it passes over the fractions and goes to the first open slot of
another kind.  But a blank half of a fraction is also a lone blank, and it may be the operand of a
root or a suffix, so the sign can come to stand in a half all the same; the fraction is then lost.
`Buffer.fill?_minus` says that otherwise all fractions of the text are kept as they are, and
`Buffer.fill?_minus_differs` is an empty fraction that a sign goes to. -/

namespace PocketCalculator

variable {t : Text} {start stop : Nat}

/-! ### Fractions around a gap -/

theorem Gap.le_length (h : Gap t start stop) : start ≤ t.length := by
  cases h with
  | blank h => simp [h]
  | parentheses f h =>
      rw [h, List.length_append, List.length_append, List.length_append, List.length_singleton]
      exact Nat.le_add_right _ _

/-- Where an operand is missing there is a blank half of a fraction, or the fractions of the text
part there. -/
theorem fractions_gap (h : Gap t start stop) :
    (∃ f ∈ fractions t, ∃ h, f.half h = [blankSymbol] ∧ f.halfStart h = start) ∨
      fractions t =
        fractions (t.take start) ++ (fractions (t.drop stop)).map (.shift stop) := by
  cases h with
  | @blank front back h =>
      subst h
      by_cases hcovers : ∃ f ∈ fractions (front ++ blankSymbol :: back),
          f.Covers front.length
      · obtain ⟨f, hf, hcovers⟩ := hcovers
        exact .inl ⟨f, hf, FractionSpan.exists_blank_half_of_covers hf hcovers⟩
      · right
        rw [fractions_append_cons (by decide) fun f hf hc => hcovers ⟨f, hf, hc⟩, List.take_left,
          List.append_cons, ← List.length_singleton, ← List.length_append, List.drop_left]
  | @parentheses front back f h =>
      right
      -- neither parenthesis is in a fraction
      have hopening : t = front ++ f.text ++ '(' :: ')' :: back := by
        rw [h]
        simp
      have hlength : front.length + (f.text.length + 1) = (front ++ f.text ++ ['(']).length := by
        simp only [List.length_append, List.length_singleton, Nat.add_assoc]
      have hpart (back : Text) := @fractions_append_cons '(' (front ++ f.text) back (by decide)
        (FractionSpan.not_covers (by decide) (by decide) (by decide) (by decide))
      have hnil : fractions ([] : Text) = [] := rfl
      rw [hlength, hopening, List.append_cons _ '(' (')' :: back), List.take_left, List.drop_left,
        ← List.append_cons _ '(' (')' :: back), hpart, hpart, hnil, List.map_nil, List.append_nil,
        ← hlength, List.length_append, Nat.add_assoc]

/-- The fractions of a text part at a sign that is put into it. -/
theorem fractions_minus (hstart : start ≤ t.length) :
    fractions (t.take start ++ '-' :: t.drop stop) =
      fractions (t.take start) ++ (fractions (t.drop stop)).map (.shift (start + 1)) := by
  have hpart := @fractions_append_cons '-' (t.take start) (t.drop stop) (by decide)
    (FractionSpan.not_covers (by decide) (by decide) (by decide) (by decide))
  rwa [List.length_take_of_le hstart] at hpart

theorem not_mem_fractions_minus {f : FractionSpan} {h : Half} (hstart : start ≤ t.length)
    (hhalf : f.half h = [blankSymbol]) (hs : f.halfStart h = start) :
    f ∉ fractions (t.take start ++ '-' :: t.drop stop) := by
  intro hf
  have hprefix := FractionSpan.half_prefix_drop hf h
  rw [hhalf, hs, List.drop_left' (List.length_take_of_le hstart)] at hprefix
  exact absurd (List.cons_prefix_cons.1 hprefix).1 (by decide)

namespace Buffer

variable {b b' : Buffer}

/-! ### Filling with a sign -/

/-- The first open slot that is no fraction. -/
def signSlot? (b : Buffer) : Option Slot :=
  (slots b.text).find? fun s => s.kind ≠ .fraction

theorem fill?_minus_eq (b : Buffer) : b.fill? ['-'] =
    match b.signSlot? with
    | some (.simple _ s) => some (b.fillSimple s ['-'])
    | _ => none := by
  have hslot : b.slotToFill? ['-'] = b.signSlot? := by
    rw [slotToFill?, signSlot?]
    congr 1
    funext s
    cases s.kind <;> rfl
  rw [fill?, if_pos (by decide), hslot]
  cases hfind : b.signSlot? with
  | none => rfl
  | some s =>
      cases s with
      | simple kind s => rfl
      | fraction f => exact absurd (List.find?_some hfind) (by simp [Slot.kind])

theorem exists_signSlot?_iff :
    (∃ kind s, b.signSlot? = some (.simple kind s)) ↔ hasBlank b.text = true := by
  rw [hasBlank_iff_exists_slot]
  constructor
  · rintro ⟨kind, s, h⟩
    exact ⟨kind, s, List.mem_of_find?_eq_some h⟩
  · rintro ⟨kind, s, hs⟩
    have hkind : kind ≠ .fraction := by
      rintro rfl
      obtain ⟨-, front, p, back, -, hp, -⟩ := exists_of_mem_slots hs
      exact absurd hp List.not_mem_nil
    have hsome : b.signSlot?.isSome = true :=
      List.find?_isSome.2 ⟨_, hs, decide_eq_true hkind⟩
    obtain ⟨slot, hslot⟩ := Option.isSome_iff_exists.1 hsome
    cases slot with
    | simple kind s => exact ⟨kind, s, hslot⟩
    | fraction f => exact absurd (List.find?_some hslot) (by simp [Slot.kind])

/-- A sign fills the first open slot that is no fraction, if there is one.  The fractions on both
sides stay as they are; when the blank is a half of a fraction, this one is lost, and otherwise the
text had no others. -/
theorem fill?_minus (b : Buffer) :
    (b.fill? ['-'] = none ↔ hasBlank b.text = false) ∧
      ∀ b', b.fill? ['-'] = some b' → ∃ kind s start stop,
        b.signSlot? = some (.simple kind s) ∧
        s.start ≤ start ∧ stop ≤ s.stop ∧ Gap b.text start stop ∧
        b'.text = b.text.take start ++ '-' :: b.text.drop stop ∧
        fractions b'.text = fractions (b.text.take start) ++
          (fractions (b.text.drop stop)).map (.shift (start + 1)) ∧
        ((∃ f ∈ fractions b.text, ∃ h, f.half h = [blankSymbol] ∧ f.halfStart h = start ∧
            f ∉ fractions b'.text) ∨
          fractions b.text = fractions (b.text.take start) ++
            (fractions (b.text.drop stop)).map (.shift stop)) := by
  rw [fill?_minus_eq, ← Bool.not_eq_true, ← exists_signSlot?_iff]
  cases hslot : b.signSlot? with
  | none => simp
  | some slot =>
    cases slot with
    | fraction f => simp
    | simple kind s =>
        refine ⟨by simp, fun b' h => ?_⟩
        obtain rfl := Option.some.inj h
        obtain ⟨start, stop, hgap, hs, he, hfill⟩ :=
          exists_fillSimple (List.mem_of_find?_eq_some hslot) ['-']
        have htext : (b.fillSimple s ['-']).text =
            b.text.take start ++ '-' :: b.text.drop stop := by
          rw [hfill, text_splice _ _ _ (List.cons_ne_nil _ _), List.append_assoc]
          rfl
        refine ⟨kind, s, start, stop, rfl, hs, he, hgap, htext, ?_, ?_⟩
        · rw [htext, fractions_minus hgap.le_length]
        · rw [htext]
          refine (fractions_gap hgap).imp_left ?_
          rintro ⟨f, hf, h, hhalf, hplace⟩
          exact ⟨f, hf, h, hhalf, hplace, not_mem_fractions_minus hgap.le_length hhalf hplace⟩

-- the root is filled, and the fraction in front of it is kept
example :
    ((⟨"□/□+√□".toList, 0, .idle⟩ : Buffer).fill? ['-']).map (·.text) = some "□/□+√-".toList := by
  decide

/-- A sign goes to the numerator of an empty fraction, and the fraction is lost. -/
theorem fill?_minus_differs :
    let b := cleared.insert Template.fraction.text
    b.text = "□/□".toList ∧ fractions b.text = [⟨0, [blankSymbol], [blankSymbol]⟩] ∧
      (b.fill? ['-']).map (·.text) = some "-/□".toList ∧ fractions "-/□".toList = [] := by
  decide

end Buffer
end PocketCalculator
