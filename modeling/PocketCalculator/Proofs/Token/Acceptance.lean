import PocketCalculator.Unit
import PocketCalculator.Proofs.Token.Scanning

/-! # Texts that the scanner accepts

The scanner stops only at a character that is a unit of its own and neither a blank, nor a part of a
number, nor a token: `Token.exists_of_ofChars_error`.  Heads are never a reason to stop, and neither
is what stands beside a character. -/

namespace PocketCalculator

theorem not_mem_headInitials_of_isBlank {c : Char} (h : isBlank c = true) : c ∉ headInitials := by
  have key : headInitials.all (fun c => isBlank c = false) = true := by decide
  intro hc
  rw [of_decide_eq_true (List.all_eq_true.1 key c hc)] at h
  cases h

theorem units_append_of_no_head {run : Text} (h : ∀ c ∈ run, c ∉ headInitials) (rest : Text) :
    units (run ++ rest) = run.map ([·]) ++ units rest := by
  induction run with
  | nil => rfl
  | cons c run ih =>
      have hread := Head.read?_cons_eq_none (run ++ rest) (h c List.mem_cons_self)
      rw [List.cons_append, units_cons_of_char hread, ih fun d hd => h d (List.mem_cons_of_mem c hd)]
      rfl

theorem eq_error_of_bind_pure {α β : Type} {x : Except Fault α} {f : α → β} {fault : Fault}
    (h : (x >>= fun a => pure (f a)) = .error fault) : x = .error fault := by
  cases x with
  | error fault' =>
      cases h
      rfl
  | ok a => cases h

/-- What the scanner stops at is a character of its own and no token. -/
theorem Token.exists_of_ofChars_error {previous : Option Token} {t : Text} {fault : Fault}
    (h : ofChars previous t = .error fault) :
    ∃ c, fault = .unexpectedToken [c] ∧ [c] ∈ units t ∧ isBlank c = false ∧
      isNumeralChar c = false ∧ ofChar? c = none := by
  -- a character found in the rest is found in the whole
  have behind {t rest : Text} (hsub : units rest ⊆ units t)
      (ih : ∃ c, fault = .unexpectedToken [c] ∧ [c] ∈ units rest ∧ isBlank c = false ∧
        isNumeralChar c = false ∧ ofChar? c = none) :
      ∃ c, fault = .unexpectedToken [c] ∧ [c] ∈ units t ∧ isBlank c = false ∧
        isNumeralChar c = false ∧ ofChar? c = none := by
    obtain ⟨c, hf, hc, hn⟩ := ih
    exact ⟨c, hf, hsub hc, hn⟩
  fun_induction ofChars previous t with
  | case1 => cases h
  | case2 previous c rest hb ih =>
      have hread := Head.read?_cons_eq_none rest (not_mem_headInitials_of_isBlank hb)
      refine behind ?_ (ih h)
      rw [units_cons_of_char hread]
      exact List.subset_cons_self _ _
  | case3 previous c rest hb head tail hread ih =>
      refine behind ?_ (ih (eq_error_of_bind_pure h))
      rw [units_cons_of_head hread]
      exact List.subset_cons_self _ _
  | case4 previous c rest hb hread n tail hn ih =>
      refine behind ?_ (ih (eq_error_of_bind_pure h))
      rw [Numeral.read?_eq_some hn,
        units_append_of_no_head fun c hc => (isBlank_of_mem_numeral n hc).2]
      exact List.subset_append_right _ _
  | case5 previous c rest hb hread hn s hs ih =>
      refine behind ?_ (ih (eq_error_of_bind_pure h))
      rw [units_cons_of_char hread]
      exact List.subset_cons_self _ _
  | case6 previous c rest hb hread hn hs =>
      cases h
      refine ⟨c, rfl, ?_, Bool.eq_false_iff.2 hb, Numeral.isNumeralChar_of_read?_none hn, hs⟩
      rw [units_cons_of_char hread]
      exact List.mem_cons_self

end PocketCalculator
