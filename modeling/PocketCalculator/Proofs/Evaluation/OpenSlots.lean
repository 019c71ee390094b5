import PocketCalculator.Proofs.Buffer.Filling
import PocketCalculator.Proofs.Evaluation.Blanks
import PocketCalculator.Proofs.Template.Separation

/-! # Refusing and filling see the same slots

Evaluation looks for a blank or an empty circular function, and a filling searches for the open
slots kind by kind.  The two look at different things: a fraction is a slot only where one of its
halves is blank, and a blank may belong to several slots.  They agree all the same
(`hasBlank_iff_slots_ne_nil`), because every slot has a blank or is an empty function, and every
blank is at least a lone one.

While no fraction is being edited, no open slot declines a value other than a sign
(`Buffer.isSome_fill?_iff`): the value goes to a blank half, which is never the name of the last
result.  So an expression is refused for an open slot exactly when a digit can still fill one
(`hasBlank_iff_fillable`). -/

namespace PocketCalculator

variable {t v : Text} {ans : Option Float}

/-! ### Open slots -/

theorem blank_mem_of_hasBlank {f : FractionSpan} (hf : f ∈ fractions t) (h : f.hasBlank = true) :
    blankSymbol ∈ t := by
  obtain ⟨half, hhalf⟩ : ∃ half, f.half half = [blankSymbol] := by
    rw [FractionSpan.hasBlank, Bool.or_eq_true, beq_iff_eq, beq_iff_eq] at h
    rcases h with h | h
    · exact ⟨.numerator, h⟩
    · exact ⟨.denominator, h⟩
  have hstands := FractionSpan.half_prefix_drop hf half
  rw [hhalf] at hstands
  exact List.mem_of_mem_drop (hstands.subset List.mem_cons_self)

/-- A text has a blank or an empty circular function exactly when a slot is open. -/
theorem hasBlank_iff_slots_ne_nil : hasBlank t = true ↔ slots t ≠ [] := by
  constructor
  · intro h
    obtain ⟨kind, s, hs⟩ := hasBlank_iff_exists_slot.1 h
    exact List.ne_nil_of_mem hs
  · intro h
    obtain ⟨slot, hslot⟩ := List.exists_mem_of_ne_nil _ h
    cases slot with
    | fraction f =>
        obtain ⟨hf, hblank⟩ := fraction_mem_slots_iff.1 hslot
        exact hasBlank_iff.2 (.inl (blank_mem_of_hasBlank hf hblank))
    | simple kind s => exact hasBlank_iff_exists_slot.2 ⟨kind, s, hslot⟩

/-! ### Filling -/

namespace Buffer

variable {b : Buffer}

theorem isSome_fillFraction? {f : FractionSpan} (hidle : b.fraction.active = false)
    (hf : f.hasBlank = true) (v : Text) : (b.fillFraction? f v).isSome = true := by
  rw [fillFraction?, if_pos (half_halfToFill hidle hf)]
  rfl

/-- While no fraction is being edited, a value other than a sign can be filled in exactly when a
slot is open. -/
theorem isSome_fill?_iff (hidle : b.fraction.active = false) (hvalue : isFillValue v = true)
    (hv : v ≠ ['-']) : (b.fill? v).isSome = true ↔ slots b.text ≠ [] := by
  rw [fill?, if_pos hvalue, slotToFill?_eq_head? hv]
  cases hslots : slots b.text with
  | nil => simp
  | cons slot rest =>
      refine iff_of_true ?_ (List.cons_ne_nil slot rest)
      cases slot with
      | simple kind s => rfl
      | fraction f =>
          have hmem : .fraction f ∈ slots b.text := by
            rw [hslots]
            exact List.mem_cons_self
          dsimp only [List.head?_cons]
          rw [hidle, if_neg Bool.false_ne_true]
          exact isSome_fillFraction? hidle (fraction_mem_slots_iff.1 hmem).2 v

end Buffer

/-! ### Refusal -/

/-- An expression is refused for an open slot exactly when it has a blank or an empty circular
function. -/
theorem evaluate_blankLeft_iff :
    (∃ failure, evaluate ans t = .error failure ∧ failure.fault.code = Fault.blankLeft.code) ↔
      hasBlank t = true := by
  constructor
  · rintro ⟨failure, h, hc⟩
    exact hasBlank_of_evaluate h hc
  · intro h
    refine ⟨⟨.blankLeft, some t⟩, ?_, rfl⟩
    rw [evaluate, incompleteness?, if_pos h]

/-- The two searches for open slots agree on every text: evaluation finds a blank or an empty
function exactly when a slot is open, and exactly when a digit, no matter which one, can be filled
into it while no fraction is being edited.  So evaluation refuses a text for an open slot exactly
when some digit can still be filled in. -/
theorem hasBlank_iff_fillable (t : Text) :
    (hasBlank t = true ↔ slots t ≠ []) ∧
    ∀ b : Buffer, b.text = t → b.fraction.active = false →
      (hasBlank t = true ↔ ∀ d, isAsciiDigit d = true → (b.fill? [d]).isSome = true) ∧
      ∀ ans, (∃ failure, evaluate ans t = .error failure ∧ failure.fault.code = "3032") ↔
        ∃ d, isAsciiDigit d = true ∧ (b.fill? [d]).isSome = true := by
  refine ⟨hasBlank_iff_slots_ne_nil, ?_⟩
  rintro b rfl hidle
  have hfill {d : Char} (hd : isAsciiDigit d = true) :
      (b.fill? [d]).isSome = true ↔ hasBlank b.text = true := by
    obtain ⟨hvalue, hminus⟩ := isFillValue_plain (isPlainNumeralChar_of_digit hd)
    rw [Buffer.isSome_fill?_iff hidle hvalue hminus, hasBlank_iff_slots_ne_nil]
  have hzero : isAsciiDigit '0' = true := by decide
  refine ⟨⟨fun h d hd => (hfill hd).2 h, fun h => (hfill hzero).1 (h '0' hzero)⟩, fun ans => ?_⟩
  refine evaluate_blankLeft_iff.trans ⟨fun h => ⟨'0', hzero, (hfill hzero).2 h⟩, ?_⟩
  rintro ⟨d, hd, h⟩
  exact (hfill hd).1 h

/-- The blank of a sum takes every digit, and until then the sum is refused. -/
theorem hasBlank_iff_fillable_sum :
    (⟨"5+□".toList, 3, .idle⟩ : Buffer).text = "5+□".toList ∧
      (⟨"5+□".toList, 3, .idle⟩ : Buffer).fraction.active = false ∧
      (∀ d, isAsciiDigit d = true →
        ((⟨"5+□".toList, 3, .idle⟩ : Buffer).fill? [d]).isSome = true) ∧
      ∃ failure, evaluate none "5+□".toList = .error failure ∧ failure.fault.code = "3032" := by
  obtain ⟨hfill, hrefused⟩ :=
    (hasBlank_iff_fillable "5+□".toList).2 ⟨"5+□".toList, 3, .idle⟩ rfl rfl
  have hall := hfill.1 (by decide)
  exact ⟨rfl, rfl, hall, (hrefused none).2 ⟨'0', by decide, hall '0' (by decide)⟩⟩

end PocketCalculator
