import PocketCalculator.Proofs.Evaluation.LeadingZero
import PocketCalculator.Proofs.Token.Acceptance

/-! # Only incomplete expressions are refused

A refusal is a fault of its own kind, and the checks for completeness give it.  Behind them it can
only come from a blank in the tree, and a complete expression has none.  So a failed evaluation is a
refusal exactly when the expression is incomplete (`isRefusal_of_evaluate`), whatever the last
result is. -/

namespace PocketCalculator

/-- A computation that does not end in a refusal. -/
def Unrefused {α : Type} (r : Except Fault α) : Prop :=
  ∀ fault, r = .error fault → fault.isRefusal = false

section
variable {α β : Type}

theorem unrefused_ok (a : α) : Unrefused (.ok a) := by
  intro fault h
  cases h

theorem unrefused_error {fault : Fault} (h : fault.isRefusal = false) :
    Unrefused (.error fault : Except Fault α) := by
  intro fault' h'
  cases h'
  exact h

theorem Unrefused.bind {r : Except Fault α} {f : α → Except Fault β} (h : Unrefused r)
    (hf : ∀ a, r = .ok a → Unrefused (f a)) : Unrefused (r >>= f) := by
  cases r with
  | error fault => exact unrefused_error (h fault rfl)
  | ok a => exact hf a rfl

theorem Unrefused.bind_pure {r : Except Fault α} (h : Unrefused r) (f : α → β) :
    Unrefused (r >>= fun a => pure (f a)) :=
  h.bind fun a _ => unrefused_ok (f a)

end

/-! ### Tokens -/

theorem unrefused_ofChars (previous : Option Token) (t : Text) :
    Unrefused (Token.ofChars previous t) := by
  intro fault h
  obtain ⟨c, rfl, -⟩ := Token.exists_of_ofChars_error h
  rfl

theorem unrefused_readNumber (t : Text) : Unrefused (readNumber t) := by
  unfold readNumber
  split
  · exact unrefused_error rfl
  · split
    · exact unrefused_ok _
    · exact unrefused_error rfl

/-! ### Trees -/

namespace Expr

theorem unrefused_ofAns (ans : Option Float) : Unrefused (ofAns ans) := by
  cases ans with
  | none => exact unrefused_error rfl
  | some x => exact unrefused_ok _

theorem unrefused_closeGroup (e : Expr) (ts : List Token) : Unrefused (closeGroup e ts) := by
  unfold closeGroup
  split
  · exact unrefused_ok _
  · split
    · exact unrefused_error rfl
    · exact unrefused_error rfl
  · exact unrefused_error rfl

theorem unrefused_operand (ans : Option Float) (level : OperandLevel) (ts : List Token) :
    Unrefused (operand ans level ts) := by
  fun_induction operand ans level ts
  case case2 ih | case5 ih | case6 ih | case7 ih | case8 ih | case9 ih =>
    exact ih.bind_pure _
  case case10 => exact (unrefused_readNumber _).bind_pure _
  case case11 => exact (unrefused_ofAns ans).bind_pure _
  case case12 => exact unrefused_ok _
  case case14 ih | case17 ih =>
    refine ih.bind fun r _ => ?_
    exact (unrefused_closeGroup r.1 r.2).bind_pure _
  all_goals exact unrefused_error rfl

theorem unrefused_chainAfter (ans : Option Float) (ts : List Token) :
    Unrefused (chainAfter ans ts) := by
  fun_induction chainAfter ans ts with
  | case1 => exact unrefused_ok _
  | case2 => exact unrefused_ok _
  | case3 t rest op hop fault hfault =>
      exact unrefused_error (unrefused_operand ans .signed rest fault hfault)
  | case4 t rest op hop e rest' hoperand ih => exact ih.bind_pure _

theorem unrefused_ofTokens (ans : Option Float) (ts : List Token) :
    Unrefused (ofTokens ans ts) := by
  unfold ofTokens
  refine (unrefused_operand ans .signed ts).bind fun r _ => ?_
  refine (unrefused_chainAfter ans r.2).bind fun r' _ => ?_
  dsimp only
  split
  · exact unrefused_error rfl
  · exact unrefused_ok _

/-- Every place for an operand has been filled. -/
def HasNoBlank : Expr → Prop
  | blank => False
  | literal _ => True
  | neg e | apply _ e => HasNoBlank e
  | binary _ l r | foreign _ l r | fraction l r => HasNoBlank l ∧ HasNoBlank r

theorem HasNoBlank.suffixes {e : Expr} (h : e.HasNoBlank) (ss : List Suffix) :
    (ss.foldl (fun e s => apply (.suffix s) e) e).HasNoBlank := by
  induction ss generalizing e with
  | nil => exact h
  | cons s ss ih => exact ih h

theorem HasNoBlank.toFraction {e : Expr} (h : e.HasNoBlank) : e.toFraction.HasNoBlank := by
  unfold Expr.toFraction
  split
  · split
    · exact h
    · exact h
  · exact h

end Expr

theorem Reads.subset {ans : Option Float} {p : Phrase} {ts rest : List Token} {e : Expr}
    (h : Reads ans p ts e rest) : rest ⊆ ts := by
  obtain ⟨taken, rfl, -, -⟩ := h.derives
  exact List.subset_append_right taken rest

theorem Reads.hasNoBlank {ans : Option Float} {p : Phrase} {ts rest : List Token} {e : Expr}
    (h : Reads ans p ts e rest) (hb : .blank ∉ ts) : e.HasNoBlank := by
  induction h with
  | sum hl _ ihl ihr | product hl _ ihl ihr =>
      exact ⟨ihl hb, ihr fun hm => hb (hl.subset (List.mem_cons_of_mem _ hm))⟩
  | minusLiteral => trivial
  | number => trivial
  | ans => trivial
  | blank => exact hb List.mem_cons_self
  | suffixes _ _ ih => exact (ih hb).suffixes _
  | term _ ih | signed _ ih | prefixed _ ih | postfixed _ ih | unit _ ih => exact ih hb
  | plus _ ih | minus _ _ ih | marker _ ih | root _ ih | group _ ih =>
      exact ih fun hm => hb (List.mem_cons_of_mem _ hm)
  | markerMinus _ ih | rootMarker _ ih | rootMinus _ ih | call _ ih =>
      exact ih fun hm => hb (List.mem_cons_of_mem _ (List.mem_cons_of_mem _ hm))
  | rootMarkerMinus _ ih =>
      exact ih fun hm => hb (by simp [hm])

/-! ### Values -/

theorem unrefused_apply (f : Function) (x : Float) : Unrefused (f.apply x) := by
  intro fault h
  cases f with
  | root =>
      simp only [Function.apply, squareRoot] at h
      split at h
      all_goals cases h
      rfl
  | marker m =>
      simp only [Function.apply, Marker.apply, boundedPower] at h
      repeat' split at h
      all_goals cases h
      all_goals rfl
  | suffix s =>
      simp only [Function.apply, Suffix.apply, factorial] at h
      repeat' split at h
      all_goals cases h
      all_goals rfl
  | circular f =>
      simp only [Function.apply, Circular.applyInverse, Circular.apply] at h
      repeat' split at h
      all_goals cases h
      all_goals rfl
  | unknown name =>
      cases h
      rfl

theorem unrefused_divide (x y : Float) : Unrefused (divide x y) := by
  unfold divide
  split
  · exact unrefused_error rfl
  · exact unrefused_ok _

theorem unrefused_operator (op : Operator) (x y : Float) : Unrefused (op.apply x y) := by
  rcases op with (_ | _) | op
  · exact unrefused_ok _
  · exact unrefused_ok _
  · show Unrefused (if op.divides then divide x y else .ok (x * y))
    split
    · exact unrefused_divide x y
    · exact unrefused_ok _

theorem Expr.HasNoBlank.unrefused {e : Expr} (h : e.HasNoBlank) : Unrefused e.value := by
  induction e with
  | blank => exact absurd h id
  | literal x => exact unrefused_ok x
  | neg e ih => exact (ih h).bind_pure _
  | apply f e ih => exact (ih h).bind fun x _ => unrefused_apply f x
  | binary op l r ihl ihr =>
      refine (ihl h.1).bind fun x _ => (ihr h.2).bind fun y _ => ?_
      exact unrefused_operator op x y
  | «foreign» symbol l r ihl ihr =>
      refine (ihl h.1).bind fun x _ => (ihr h.2).bind fun y _ => ?_
      exact unrefused_error rfl
  | fraction n d ihn ihd =>
      refine (ihn h.1).bind fun x _ => (ihd h.2).bind fun y _ => ?_
      exact unrefused_divide x y

/-! ### Evaluation -/

theorem blank_not_mem_withProducts {previous : Option Token} {t : Text} {ts : List Token}
    (h : Token.ofChars previous t = .ok ts) (hb : blankSymbol ∉ t) :
    .blank ∉ Token.withProducts ts := by
  intro hm
  rcases Token.mem_withProducts hm with hm | hm
  · exact hb (((Token.scanned_iff.2 h).infix_of_mem hm).subset List.mem_cons_self)
  · cases hm

theorem unrefused_treeValue {t : Text} (ans : Option Float) (hb : blankSymbol ∉ t) :
    Unrefused (treeValue ans t) := by
  refine (unrefused_ofChars none t).bind fun ts hts => ?_
  refine (Expr.unrefused_ofTokens ans _).bind fun e he => ?_
  obtain ⟨s, hs, rfl⟩ := Expr.ofTokens_eq_ok_iff_reads.1 he
  exact (hs.hasNoBlank (blank_not_mem_withProducts hts hb)).toFraction.unrefused

/-- A failed evaluation is a refusal exactly when the expression is incomplete. -/
theorem isRefusal_of_evaluate {ans : Option Float} {t : Text} {failure : Failure}
    (h : evaluate ans t = .error failure) :
    failure.fault.isRefusal = (incompleteness? t).isSome := by
  rw [evaluate_eq] at h
  cases hi : incompleteness? t with
  | some fault =>
      rw [hi] at h
      cases h
      unfold incompleteness? at hi
      repeat' split at hi
      all_goals cases hi
      all_goals rfl
  | none =>
      rw [hi] at h
      have hb : blankSymbol ∉ t := by
        intro hm
        simp [incompleteness?, hasBlank, hm] at hi
      cases hv : treeValue ans t with
      | ok x =>
          rw [hv] at h
          cases h
      | error fault =>
          rw [hv] at h
          cases h
          exact unrefused_treeValue ans hb fault hv

end PocketCalculator
