import PocketCalculator.Proofs.Evaluation.Refusal
import PocketCalculator.Proofs.Session.Presses

/-! # Evaluating twice

A successful evaluation becomes Ans, and the next evaluation of the same expression reads it.  So
the second evaluation changes nothing exactly when the value is reproduced with itself for Ans
(`Session.evaluate_again`); that is so for every expression that does not name Ans, and
`Session.evaluate_again_differs` is one that does. -/

namespace PocketCalculator

/-! ### Expressions that do not name Ans -/

theorem Reads.of_ans_not_mem {ans : Option Float} {p : Phrase} {ts rest : List Token} {e : Expr}
    (h : Reads ans p ts e rest) (hn : .ans ∉ ts) (ans' : Option Float) :
    Reads ans' p ts e rest := by
  induction h with
  | term _ ih => exact (ih hn).term
  | sum hl _ ihl ihr =>
      exact (ihl hn).sum (ihr fun hm => hn (hl.subset (List.mem_cons_of_mem _ hm)))
  | signed _ ih => exact (ih hn).signed
  | product hl _ ihl ihr =>
      exact (ihl hn).product (ihr fun hm => hn (hl.subset (List.mem_cons_of_mem _ hm)))
  | plus _ ih => exact (ih fun hm => hn (by simp [hm])).plus
  | minusLiteral _ ih => exact (ih fun hm => hn (by simp [hm])).minusLiteral
  | minus _ hl ih => exact (ih fun hm => hn (by simp [hm])).minus hl
  | prefixed _ ih => exact (ih hn).prefixed
  | marker _ ih => exact (ih fun hm => hn (by simp [hm])).marker
  | markerMinus _ ih => exact (ih fun hm => hn (by simp [hm])).markerMinus
  | suffixes _ hs ih => exact (ih hn).suffixes hs
  | postfixed _ ih => exact (ih hn).postfixed
  | rootMarker _ ih => exact (ih fun hm => hn (by simp [hm])).rootMarker
  | rootMarkerMinus _ ih => exact (ih fun hm => hn (by simp [hm])).rootMarkerMinus
  | rootMinus _ ih => exact (ih fun hm => hn (by simp [hm])).rootMinus
  | root _ ih => exact (ih fun hm => hn (by simp [hm])).root
  | unit _ ih => exact (ih hn).unit
  | number hx => exact .number hx
  | ans => exact absurd List.mem_cons_self hn
  | blank => exact .blank
  | call _ ih => exact (ih fun hm => hn (by simp [hm])).call
  | group _ ih => exact (ih fun hm => hn (by simp [hm])).group

theorem treeValue_of_ans_not_infix {ans : Option Float} {t : Text} {x : Float}
    (hn : ¬ansName <:+: t) (h : treeValue ans t = .ok x) (ans' : Option Float) :
    treeValue ans' t = .ok x := by
  obtain ⟨ts, hts, h⟩ := Expr.exists_of_bind_eq_ok h
  obtain ⟨e, he, hv⟩ := Expr.exists_of_bind_eq_ok h
  obtain ⟨s, hs, rfl⟩ := Expr.ofTokens_eq_ok_iff_reads.1 he
  have hmem : .ans ∉ Token.withProducts ts := by
    intro hm
    rcases Token.mem_withProducts hm with hm | hm
    · exact hn ((Token.scanned_iff.2 hts).infix_of_mem hm)
    · cases hm
  rw [treeValue_of_ofChars hts,
    Expr.ofTokens_eq_ok_iff_reads.2 ⟨s, hs.of_ans_not_mem hmem ans', rfl⟩]
  exact hv

theorem evaluate_of_ans_not_infix {ans : Option Float} {t : Text} {x : Float}
    (hn : ¬ansName <:+: t) (h : evaluate ans t = .ok x) (ans' : Option Float) :
    evaluate ans' t = .ok x := by
  obtain ⟨hi, hv⟩ := treeValue_of_evaluate h
  rw [evaluate_eq, hi, treeValue_of_ans_not_infix hn hv ans']
  rfl

/-! ### The second evaluation -/

namespace Session

variable {p : Profile} {s : Session}

theorem evaluate_of_refusal {failure : Failure} (hf : s.outcome = .error failure)
    (hr : failure.fault.isRefusal = true) : (s.evaluate p).1 = s := by
  rw [evaluate_of_error hf, if_pos hr]

theorem evaluate_of_failure {failure : Failure} (hf : s.outcome = .error failure)
    (hr : failure.fault.isRefusal = false) : (s.evaluate p).1 = s.fail := by
  rw [evaluate_of_error hf, hr]
  rfl

theorem fields_succeed (p : Profile) (s : Session) (x : Float) :
    (s.succeed p x).1.registers.ans = some x ∧ (s.succeed p x).1.lastValue = some x ∧
      (s.succeed p x).1.buffer.text = s.buffer.text := by
  cases ht : s.format.render p.settings x with
  | ok t =>
      rw [succeed_of_ok ht]
      exact ⟨rfl, rfl, rfl⟩
  | error fault =>
      rw [succeed_of_error ht]
      exact ⟨rfl, rfl, rfl⟩

theorem succeed_again (p : Profile) (s : Session) (x : Float) :
    ((s.succeed p x).1.succeed p x).1 = (s.succeed p x).1 := by
  cases ht : s.format.render p.settings x with
  | ok t =>
      rw [succeed_of_ok ht]
      rw [succeed_of_ok (s := { s.stored x with
        result := t, valid := true, buffer := s.buffer.withFraction .idle }) ht]
      rfl
  | error fault =>
      rw [succeed_of_error ht]
      rw [succeed_of_error (s := s.stored x) ht]
      rfl

theorem outcome_succeed (p : Profile) (s : Session) (x : Float) :
    (s.succeed p x).1.outcome = PocketCalculator.evaluate (some x) s.buffer.text := by
  obtain ⟨hans, -, htext⟩ := fields_succeed p s x
  rw [outcome, hans, htext]

theorem evaluate_again_of_error {failure : Failure} (hf : s.outcome = .error failure) :
    ((s.evaluate p).1.evaluate p).1 = (s.evaluate p).1 := by
  cases hr : failure.fault.isRefusal with
  | true => rw [evaluate_of_refusal hf hr, evaluate_of_refusal hf hr]
  | false =>
      rw [evaluate_of_failure hf hr, evaluate_of_failure (s := s.fail) hf hr]
      rfl

/-- After a value, the second evaluation changes nothing exactly when it has the same value. -/
theorem evaluate_again_of_ok {x : Float} (hx : s.outcome = .ok x) :
    ((s.evaluate p).1.evaluate p).1 = (s.evaluate p).1 ↔
      PocketCalculator.evaluate (some x) s.buffer.text = .ok x := by
  rw [evaluate_of_ok hx, ← outcome_succeed p s x]
  obtain ⟨hans, hlast, -⟩ := fields_succeed p s x
  constructor
  · intro h
    cases hy : (s.succeed p x).1.outcome with
    | ok y =>
        rw [evaluate_of_ok hy] at h
        have hans' := (fields_succeed p (s.succeed p x).1 y).1
        rw [h, hans] at hans'
        rw [Option.some.inj hans']
    | error failure =>
        -- a complete expression stays complete, so it is not refused
        have hcomplete := (treeValue_of_evaluate hx).1
        have hr := isRefusal_of_evaluate ((outcome_succeed p s x).symm.trans hy)
        rw [hcomplete] at hr
        rw [evaluate_of_failure hy hr] at h
        rw [← h] at hlast
        cases hlast
  · intro hy
    rw [evaluate_of_ok hy, succeed_again]

/-- A second evaluation of the same expression changes nothing exactly when a value, if there was
one, is reproduced with itself for Ans.  That is so where the expression does not name Ans. -/
theorem evaluate_again (p : Profile) (s : Session) :
    (((s.evaluate p).1.evaluate p).1 = (s.evaluate p).1 ↔
      ∀ x, s.outcome = .ok x → PocketCalculator.evaluate (some x) s.buffer.text = .ok x) ∧
    (¬ansName <:+: s.buffer.text → ((s.evaluate p).1.evaluate p).1 = (s.evaluate p).1) := by
  cases hx : s.outcome with
  | error failure =>
      have h : ((s.evaluate p).1.evaluate p).1 = (s.evaluate p).1 := evaluate_again_of_error hx
      refine ⟨⟨fun _ x hx => ?_, fun _ => h⟩, fun _ => h⟩
      cases hx
  | ok x =>
      have h := evaluate_again_of_ok (p := p) hx
      refine ⟨⟨fun h' y hy => ?_, fun h' => h.2 (h' x rfl)⟩, fun hn => h.2 ?_⟩
      · cases hy
        exact h.1 h'
      · exact evaluate_of_ans_not_infix hn hx (some x)

/-- With 6 for Ans, `ans+1` is 7 and then 8. -/
theorem evaluate_again_differs :
    let p : Profile := ⟨.standard, .ok Settings.defaults⟩
    let names := ["6", "=", "AC", "ans", "+", "1"].map String.toList
    ((start p).run p names).toOption.map (fun s =>
      (s.buffer.text, (s.evaluate p).1.registers.ans,
        ((s.evaluate p).1.evaluate p).1.registers.ans)) =
      some ("ans+1".toList, some 7, some 8) := by
  decide +kernel

end Session
end PocketCalculator
