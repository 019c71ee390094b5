import PocketCalculator.Proofs.Evaluation.Chains

/-! # Reducing operands

The flat text of an expression keeps its operators and shows every operand by its value.  The tree
of an expression is a chain of operands on two levels, so its flat text is the text of the chain of
their values (`Expr.flatText_toFraction`), with a slash in place of the operator where the tree is a
fraction.  The text is read as a chain again, and it evaluates to the value of the expression
without the last result: `reduceOperands_evaluate`. -/

namespace PocketCalculator

namespace Expr

/-! ### Operands -/

/-- The operands of an expression: the largest parts that no operator joins. -/
def operands : Expr → List Expr
  | binary _ l r | foreign _ l r | fraction l r => l.operands ++ r.operands
  | e => [e]

variable {sum : Option (Expr × Additive)} {term e first : Expr} {more : List (Operator × Expr)}

theorem operands_of_isOperand (h : e.IsOperand) : e.operands = [e] := by
  cases e with
  | binary op l r => exact absurd h id
  | foreign s l r => exact absurd h id
  | fraction l r => exact absurd h id
  | _ => rfl

theorem flatText_of_isOperand {x : Float} (h : e.IsOperand) (hv : e.value = .ok x) :
    e.flatText = .ok (plainText x) := by
  cases e with
  | binary op l r => exact absurd h id
  | foreign s l r => exact absurd h id
  | fraction l r => exact absurd h id
  | _ =>
      rw [flatText, hv]
      · rfl
      all_goals nofun

/-! ### The operands of a tree -/

theorem operands_joinTerm_binary (op : Operator) (sum : Option (Expr × Additive)) (term e : Expr) :
    (joinTerm sum (binary op term e)).operands = (joinTerm sum term).operands ++ e.operands := by
  cases sum with
  | none => rfl
  | some s => exact (List.append_assoc _ _ _).symm

theorem operands_ofChain (sum : Option (Expr × Additive)) (term : Expr)
    (more : List (Operator × Expr)) :
    (ofChain sum term more).operands =
      (joinTerm sum term).operands ++ more.flatMap fun q => q.2.operands := by
  induction more generalizing sum term with
  | nil => exact (List.append_nil _).symm
  | cons q more ih =>
      obtain ⟨op, e⟩ := q
      rw [List.flatMap_cons, ← List.append_assoc]
      cases op with
      | additive op => exact ih (some (joinTerm sum term, op)) e
      | multiplicative op =>
          rw [← operands_joinTerm_binary (.multiplicative op)]
          exact ih sum _

theorem operands_toFraction (e : Expr) : e.toFraction.operands = e.operands := by
  unfold toFraction
  split
  · split <;> rfl
  · rfl

/-! ### Trees that are chains -/

/-- A first operand and the operators and operands behind it. -/
structure IsChain (first : Expr) (more : List (Operator × Expr)) : Prop where
  first_isOperand : first.IsOperand
  isOperand_of_mem : ∀ q ∈ more, q.2.IsOperand

theorem isOperand_of_chainTo {ans : Option Float} {ts rest : List Token}
    (h : ChainTo ans ts more rest) : ∀ q ∈ more, q.2.IsOperand := by
  induction h with
  | nil => exact fun q hq => absurd hq List.not_mem_nil
  | cons hop ho _ ih =>
      intro q hq
      rcases List.mem_cons.1 hq with rfl | hq
      · exact (reads_of_operand ho).shape
      · exact ih q hq

theorem exists_isChain {ans : Option Float} {ts : List Token} (h : ofTokens ans ts = .ok e) :
    ∃ first more, IsChain first more ∧ e = (ofChain none first more).toFraction := by
  obtain ⟨first, us, more, ho, hc, rfl⟩ := ofTokens_eq_ok_iff_chain.1 h
  have hmore := isOperand_of_chainTo (chainTo_of_chainAfter hc)
  exact ⟨first, more, ⟨(reads_of_operand ho).shape, hmore⟩, rfl⟩

/-! ### Operands that their texts show -/

/-- The value of an expression is finite and not the negative zero, so its plain text shows it. -/
def HasShownValue (e : Expr) : Prop :=
  ∃ x, e.value = .ok x ∧ x.isFinite = true ∧ x ≠ -0.0

/-- The plain texts of the operands show their values. -/
def HasShownOperands (e : Expr) : Prop :=
  ∀ o ∈ e.operands, o.HasShownValue

instance (e : Expr) : Decidable e.HasShownValue :=
  match h : e.value with
  | .error _ => isFalse fun ⟨_, hx, _⟩ => by rw [hx] at h; cases h
  | .ok x =>
    decidable_of_iff (x.isFinite = true ∧ x ≠ -0.0)
      ⟨fun hx => ⟨x, h, hx⟩, fun ⟨_, hy, hx⟩ => by rw [hy] at h; cases h; exact hx⟩

instance (e : Expr) : Decidable e.HasShownOperands :=
  inferInstanceAs (Decidable (∀ o ∈ e.operands, o.HasShownValue))

theorem HasShownValue.exists_shown {o : Expr} (h : o.HasShownValue) :
    ∃ s : Shown, o.value = .ok s.value := by
  obtain ⟨x, hv, hx, h0⟩ := h
  obtain ⟨s, rfl⟩ := PocketCalculator.exists_shown hx h0
  exact ⟨s, hv⟩

theorem exists_valued (h : ∀ q ∈ more, ∃ s : Shown, q.2.value = .ok s.value) :
    ∃ shown : List (Operator × Shown), Valued more (Chain.values shown) := by
  induction more with
  | nil => exact ⟨[], .nil⟩
  | cons q more ih =>
      obtain ⟨s, hs⟩ := h q List.mem_cons_self
      obtain ⟨shown, hm⟩ := ih fun r hr => h r (List.mem_cons_of_mem q hr)
      exact ⟨(q.1, s) :: shown, .cons ⟨rfl, hs⟩ hm⟩

theorem IsChain.exists_shown (h : IsChain first more)
    (ho : (ofChain none first more).HasShownOperands) :
    ∃ (s : Shown) (shown : List (Operator × Shown)), first.value = .ok s.value ∧
      Valued more (Chain.values shown) := by
  rw [HasShownOperands, operands_ofChain, joinTerm, operands_of_isOperand h.first_isOperand] at ho
  obtain ⟨s, hs⟩ := (ho first (List.mem_append_left _ List.mem_cons_self)).exists_shown
  obtain ⟨shown, hm⟩ : ∃ shown : List (Operator × Shown), Valued more (Chain.values shown) := by
    refine exists_valued fun q hq => (ho q.2 ?_).exists_shown
    refine List.mem_append_right _ (List.mem_flatMap.2 ⟨q, hq, ?_⟩)
    rw [operands_of_isOperand (h.isOperand_of_mem q hq)]
    exact List.mem_cons_self
  exact ⟨s, shown, hs, hm⟩

/-! ### Flat texts -/

theorem flatText_binary {op : Operator} {l r : Expr} {t u : Text} (hl : l.flatText = .ok t)
    (hr : r.flatText = .ok u) : (binary op l r).flatText = .ok (t ++ op.symbol :: u) := by
  rw [flatText, hl, hr]
  rfl

theorem flatText_joinTerm_binary {t u : Text} (op : Operator) (he : e.flatText = .ok u)
    (h : (joinTerm sum term).flatText = .ok t) :
    (joinTerm sum (binary op term e)).flatText = .ok (t ++ op.symbol :: u) := by
  cases sum with
  | none => exact flatText_binary h he
  | some s =>
      obtain ⟨s, op'⟩ := s
      rw [joinTerm, flatText] at h
      obtain ⟨x, hx, h⟩ := exists_of_bind_eq_ok h
      obtain ⟨y, hy, h⟩ := exists_of_bind_eq_ok h
      cases h
      rw [joinTerm, flatText_binary hx (flatText_binary hy he), List.append_assoc]
      rfl

/-- The flat text of a chain of operands is the text of the chain of their values. -/
theorem flatText_ofChain {t : Text} {values : List (Operator × Float)}
    (hop : ∀ q ∈ more, q.2.IsOperand) (hm : Valued more values)
    (h : (joinTerm sum term).flatText = .ok t) :
    (ofChain sum term more).flatText = .ok (t ++ Chain.textBehind values) := by
  induction hm generalizing sum term t with
  | nil =>
      rw [Chain.textBehind, List.flatMap_nil, List.append_nil]
      exact h
  | @cons q r more values hq hm ih =>
      obtain ⟨op, e⟩ := q
      obtain ⟨op', z⟩ := r
      obtain ⟨rfl, he⟩ := hq
      have hz : e.flatText = .ok (plainText z) :=
        flatText_of_isOperand (hop _ List.mem_cons_self) he
      have hop' : ∀ q ∈ more, q.2.IsOperand := fun q hq => hop q (List.mem_cons_of_mem _ hq)
      have htext : t ++ Chain.textBehind ((op, z) :: values) =
          t ++ op.symbol :: plainText z ++ Chain.textBehind values := by
        rw [Chain.textBehind, List.flatMap_cons, ← List.append_assoc]
        rfl
      rw [htext]
      cases op with
      | additive op => exact ih hop' (flatText_binary h hz)
      | multiplicative op => exact ih hop' (flatText_joinTerm_binary _ hz h)

/-! ### Fractions -/

theorem toFraction_ofChain (h : sum ≠ none ∨ term.isBinary = true ∧ term.toFraction = term) :
    (ofChain sum term more).toFraction = ofChain sum term more := by
  induction more generalizing sum term with
  | nil =>
      cases sum with
      | none => exact (h.resolve_left fun h => h rfl).2
      | some s => rfl
  | cons q more ih =>
      obtain ⟨op, e⟩ := q
      cases op with
      | additive op => exact ih (.inl (Option.some_ne_none _))
      | multiplicative op =>
          refine ih (h.imp_right fun h => ⟨rfl, ?_⟩)
          rw [toFraction, h.1, Bool.not_true, Bool.and_false, if_neg Bool.false_ne_true]

theorem toFraction_product (op : Multiplicative) {l : Expr} (hl : l.isBinary = true) (r : Expr) :
    (binary (.multiplicative op) l r).toFraction = binary (.multiplicative op) l r := by
  rw [toFraction, hl, Bool.not_true, Bool.and_false, if_neg Bool.false_ne_true]

theorem toFraction_of_isOperand (h : e.IsOperand) : e.toFraction = e := by
  cases e with
  | binary op l r => exact absurd h id
  | _ => rfl

theorem toFraction_ofChain_cons_cons (first : Expr) (q r : Operator × Expr)
    (more : List (Operator × Expr)) :
    (ofChain none first (q :: r :: more)).toFraction = ofChain none first (q :: r :: more) := by
  obtain ⟨op, e⟩ := q
  obtain ⟨op', e'⟩ := r
  cases op with
  | additive op => exact @toFraction_ofChain (some (first, op)) e _ (.inl (Option.some_ne_none _))
  | multiplicative op =>
      cases op' with
      | additive op' =>
          exact @toFraction_ofChain (some (binary (.multiplicative op) first e, op')) e' _
            (.inl (Option.some_ne_none _))
      | multiplicative op' =>
          refine @toFraction_ofChain none (binary (.multiplicative op') _ e') more (.inr ⟨rfl, ?_⟩)
          exact toFraction_product op' rfl e'

end Expr

namespace Chain

/-- A lone quotient is written with a slash. -/
def withSlash {α : Type} : List (Operator × α) → List (Operator × α)
  | [(.multiplicative op, y)] =>
    if op.divides then [(.multiplicative .slash, y)] else [(.multiplicative op, y)]
  | more => more

theorem withSlash_cons_cons {α : Type} (q r : Operator × α) (more : List (Operator × α)) :
    withSlash (q :: r :: more) = q :: r :: more := by
  obtain ⟨op, y⟩ := q
  cases op <;> rfl

theorem values_withSlash (more : List (Operator × Shown)) :
    values (withSlash more) = withSlash (values more) := by
  rcases more with _ | ⟨⟨_ | op, s⟩, _ | ⟨q, more⟩⟩
  case cons.multiplicative.nil => cases op <;> rfl
  all_goals rfl

/-- Division has two spellings and one meaning. -/
theorem twoPasses_withSlash (x : Float) (more : List (Operator × Float)) :
    twoPasses x (withSlash more) = twoPasses x more := by
  rcases more with _ | ⟨⟨_ | op, s⟩, _ | ⟨q, more⟩⟩
  case cons.multiplicative.nil => cases op <;> rfl
  all_goals rfl

theorem hasZeroDivisor_withSlash (more : List (Operator × Float)) :
    hasZeroDivisor (withSlash more) = hasZeroDivisor more := by
  rcases more with _ | ⟨⟨_ | op, s⟩, _ | ⟨q, more⟩⟩
  case cons.multiplicative.nil => cases op <;> rfl
  all_goals rfl

end Chain

namespace Expr

variable {first : Expr} {more : List (Operator × Expr)}

/-- The flat text of a tree is the text of the chain of its values, a fraction having a slash. -/
theorem flatText_toFraction {x : Float} {values : List (Operator × Float)} (h : IsChain first more)
    (hx : first.value = .ok x) (hm : Valued more values) :
    (ofChain none first more).toFraction.flatText =
      .ok (Chain.text x (Chain.withSlash values)) := by
  have hfirst := flatText_of_isOperand h.first_isOperand hx
  have hchain := @flatText_ofChain none first more _ values h.isOperand_of_mem hm hfirst
  cases hm with
  | nil =>
      rw [ofChain, joinTerm, toFraction_of_isOperand h.first_isOperand]
      exact hchain
  | @cons q r more values hq hm =>
      obtain ⟨op, e⟩ := q
      obtain ⟨op', z⟩ := r
      obtain ⟨rfl, he⟩ := hq
      cases hm with
      | cons hq' hm =>
          rw [toFraction_ofChain_cons_cons, Chain.withSlash_cons_cons]
          exact hchain
      | nil =>
          cases op with
          | additive op => exact hchain
          | multiplicative op =>
              have hz : e.flatText = .ok (plainText z) :=
                flatText_of_isOperand (h.isOperand_of_mem _ List.mem_cons_self) he
              rw [ofChain, ofChain, joinTerm, toFraction, h.first_isOperand.isBinary,
                Chain.withSlash]
              cases hd : op.divides with
              | false => exact hchain
              | true =>
                  change (fraction first e).flatText = _
                  rw [flatText, hfirst, hz]
                  rw [if_pos rfl, Chain.text, Chain.textBehind, List.flatMap_singleton]
                  rfl

/-! ### The flat text evaluates to the same value -/

theorem HasShownOperands.ofChain (h : (ofChain none first more).toFraction.HasShownOperands) :
    (Expr.ofChain none first more).HasShownOperands := by
  rw [HasShownOperands, operands_toFraction] at h
  exact h

end Expr

/-- The reduced text of a complete expression is the flat text of its tree. -/
theorem reduceOperands_eq {ans : Option Float} {t : Text} {ts : List Token} {e : Expr}
    (hi : incompleteness? t = none) (ht : Token.ofExpression t = .ok ts)
    (he : Expr.ofTokens ans ts = .ok e) :
    reduceOperands ans t = withoutEquation e.flatText := by
  rw [reduceOperands, checkComplete, hi, ht]
  change withoutEquation (Expr.ofTokens ans ts >>= _) = _
  rw [he]
  rfl

/-- Reducing the operands of an expression that has a value leaves a text of numbers and operators
with the same value, which no longer needs the last result. -/
theorem reduceOperands_evaluate {ans : Option Float} {t : Text} {x : Float}
    (h : evaluate ans t = .ok x) : ∃ ts e, Token.ofExpression t = .ok ts ∧
      Expr.ofTokens ans ts = .ok e ∧ (e.HasShownOperands → ∃ u, reduceOperands ans t = .ok u ∧
        (∀ c ∈ u, isChainChar c = true) ∧ evaluate none u = .ok x) := by
  obtain ⟨hi, htree⟩ := treeValue_of_evaluate h
  obtain ⟨ts, e, ht, he, hx⟩ := exists_of_treeValue htree
  refine ⟨ts, e, ht, he, fun ho => ?_⟩
  obtain ⟨first, more, hchain, rfl⟩ := Expr.exists_isChain he
  obtain ⟨s, shown, hs, hm⟩ := hchain.exists_shown ho.ofChain
  refine ⟨Chain.text s.value (Chain.values (Chain.withSlash shown)), ?_,
    fun c hc => Chain.isChainChar_of_mem_text s hc, ?_⟩
  · rw [reduceOperands_eq hi ht he, Expr.flatText_toFraction hchain hs hm, Chain.values_withSlash]
    rfl
  · rw [Expr.value_toFraction, Expr.value_ofChain hs hm] at hx
    rw [Chain.evaluate_shown, Chain.values_withSlash, Chain.hasZeroDivisor_withSlash,
      Chain.twoPasses_withSlash]
    cases hz : hasZeroDivisor (Chain.values shown) with
    | true =>
        rw [hz] at hx
        cases hx
    | false =>
        rw [hz] at hx
        cases hx
        rfl

/-- A square, a negative group and a root are reduced, and the last result is no longer needed. -/
theorem reduceOperands_evaluate_square :
    ∃ u, reduceOperands (some 6) "ans²÷-(4)-√9".toList = .ok u ∧
      (∀ c ∈ u, isChainChar c = true) ∧ evaluate none u = .ok (-12) := by
  have h : evaluate (some 6) "ans²÷-(4)-√9".toList = .ok (-12) :=
    eq_ok_of_toOption (by decide +kernel)
  have hshown : ((Token.ofExpression "ans²÷-(4)-√9".toList).toOption.bind fun ts =>
      (Expr.ofTokens (some 6) ts).toOption).any (fun e => decide e.HasShownOperands) = true := by
    decide +kernel
  obtain ⟨ts, e, ht, he, hu⟩ := reduceOperands_evaluate h
  rw [ht] at hshown
  change (Expr.ofTokens (some 6) ts).toOption.any _ = true at hshown
  rw [he] at hshown
  exact hu (of_decide_eq_true hshown)

-- the minus in front of the group has become the sign of a number
example : (reduceOperands (some 6) "ans²÷-(4)-√9".toList).toOption = some "36÷-4-3".toList := by
  decide +kernel

end PocketCalculator
