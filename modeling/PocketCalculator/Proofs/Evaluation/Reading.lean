import PocketCalculator.Evaluation
import PocketCalculator.Proofs.Expr.Parsing
import PocketCalculator.Proofs.Token.Scanning

/-! # Evaluation without shortcuts

A lone number and the name of the last result are answered without a tree, and blanks around an
expression are cut before it is read.  Neither matters: by `evaluate_eq` a complete expression has
the value of the tree that its tokens write. -/

namespace PocketCalculator

theorem eq_ok_of_toOption {ε α : Type} {r : Except ε α} {a : α} (h : r.toOption = some a) :
    r = .ok a := by
  cases r with
  | error e => cases h
  | ok b => exact congrArg Except.ok (Option.some.inj h)

/-- The value of the tree that the tokens of a text write. -/
def treeValue (ans : Option Float) (t : Text) : Except Fault Float := do
  let tokens ← Token.ofChars none t
  let e ← Expr.ofTokens ans (Token.withProducts tokens)
  e.value

theorem fault_ofExpression (t : Text) :
    (Token.ofExpression t).mapError Failure.fault =
      (Token.ofChars none t).map Token.withProducts := by
  rw [Token.ofExpression, Token.scan]
  cases Token.ofChars none t <;> rfl

theorem treeValue_of_ofChars {ans : Option Float} {t : Text} {ts : List Token}
    (h : Token.ofChars none t = .ok ts) :
    treeValue ans t = (Expr.ofTokens ans (Token.withProducts ts)).bind Expr.value := by
  rw [treeValue, h]
  rfl

/-! ### The shortcuts -/

theorem exists_numeral_of_isNumeral {t : Text} (h : isNumeral t = true) :
    ∃ n : Numeral, n.text = t := by
  obtain ⟨n, hn⟩ := Option.isSome_iff_exists.1 h
  exact ⟨n, Numeral.text_of_ofText? hn⟩

theorem value_of_literal {ans : Option Float} {ts : List Token} {x : Except Fault Float}
    (h : Expr.operand ans .signed ts = x.map fun v => (.literal v, [])) :
    (Expr.ofTokens ans ts).bind Expr.value = x := by
  cases x with
  | error fault =>
      rw [Expr.ofTokens, h]
      rfl
  | ok v =>
      have hc : Expr.chainAfter ans [] = .ok ([], []) := by
        rw [Expr.chainAfter]
      rw [Expr.ofTokens_eq_ok_iff_chain.2 ⟨_, _, _, h, hc, rfl⟩]
      rfl

theorem treeValue_numeral (ans : Option Float) (n : Numeral) : treeValue ans n.text = n.value := by
  have h : Token.ofChars none (n.text ++ []) = .ok [.number n] := by
    rw [Token.ofChars_numeral n (fun _ => rfl) (fun c hc => by cases hc), Token.ofChars_nil]
    rfl
  rw [List.append_nil] at h
  rw [treeValue_of_ofChars h]
  refine value_of_literal ?_
  change Expr.operand ans .signed [.number n] = _
  rw [Expr.operand]
  cases n.value <;> rfl

theorem treeValue_ansName (ans : Option Float) :
    treeValue ans ansName = (Expr.ofAns ans).bind Expr.value := by
  have h : Token.ofChars none ansName = .ok [.ans] := by
    have hread : Head.read? ansName = some (.ans, []) := Head.read?_text_append .ans []
    rw [ansName, Token.ofChars_head (by decide) hread, Token.ofChars_nil]
    rfl
  rw [treeValue_of_ofChars h]
  refine value_of_literal ?_
  change Expr.operand ans .signed [.ans] = _
  rw [Expr.operand]
  cases ans <;> rfl

theorem valueOf_eq (ans : Option Float) (t : Text) : valueOf ans t = treeValue ans t := by
  unfold valueOf
  split
  · rename_i h
    obtain ⟨n, rfl⟩ := exists_numeral_of_isNumeral h
    rw [treeValue_numeral]
    rfl
  · split
    · rename_i h
      rw [h, treeValue_ansName]
      cases ans <;> rfl
    · rw [fault_ofExpression, treeValue]
      cases Token.ofChars none t <;> rfl

theorem treeValue_strip (ans : Option Float) (t : Text) :
    treeValue ans t.strip = treeValue ans t := by
  rw [treeValue, treeValue, Token.ofChars_strip]

/-- A complete expression has the value of its tree. -/
theorem evaluate_eq (ans : Option Float) (t : Text) :
    evaluate ans t = match incompleteness? t with
      | some fault => .error ⟨fault, some t⟩
      | none => (treeValue ans t).mapError fun fault => ⟨fault, some t⟩ := by
  have hv : valueOf ans t.strip = treeValue ans t := by
    rw [valueOf_eq, treeValue_strip]
  unfold evaluate
  cases incompleteness? t with
  | some fault => rfl
  | none => exact congrArg (Except.mapError fun fault => Failure.mk fault (some t)) hv

theorem treeValue_of_evaluate {ans : Option Float} {t : Text} {x : Float}
    (h : evaluate ans t = .ok x) : incompleteness? t = none ∧ treeValue ans t = .ok x := by
  rw [evaluate_eq] at h
  cases hi : incompleteness? t with
  | some fault =>
      rw [hi] at h
      cases h
  | none =>
      rw [hi] at h
      cases hv : treeValue ans t with
      | error fault =>
          rw [hv] at h
          cases h
      | ok y =>
          rw [hv] at h
          cases h
          exact ⟨rfl, rfl⟩

theorem exists_of_treeValue {ans : Option Float} {t : Text} {x : Float}
    (h : treeValue ans t = .ok x) : ∃ ts e, Token.ofExpression t = .ok ts ∧
      Expr.ofTokens ans ts = .ok e ∧ e.value = .ok x := by
  obtain ⟨ts, ht, h⟩ := Expr.exists_of_bind_eq_ok h
  obtain ⟨e, he, hx⟩ := Expr.exists_of_bind_eq_ok h
  refine ⟨Token.withProducts ts, e, ?_, he, hx⟩
  rw [Token.ofExpression, Token.scan, ht]
  rfl

/-! ### One way for all expressions -/

/-- The value of an expression that is always read off its tree, in the order of the checks: the
text as it is has to be complete, the text without the blanks around it has to be one of tokens, and
these have to write a tree with a value.  Every failure carries the whole expression. -/
def evaluateByTree (ans : Option Float) (t : Text) : Except Failure Float :=
  Except.mapError (fun failure => { failure with equation := some t }) do
    checkComplete t
    let tokens ← Token.ofExpression t.strip
    withoutEquation do
      let e ← Expr.ofTokens ans tokens
      e.value

/-- Of the two equations that a failure may be given, the outer one counts. -/
theorem mapError_withoutEquation {α : Type} (r : Except Fault α) (t : Text) :
    (withoutEquation r).mapError (fun failure => { failure with equation := some t }) =
      r.mapError fun fault => ⟨fault, some t⟩ := by
  cases r <;> rfl

/-- The shortcuts of `evaluate` change neither a value nor anything about a failure, whatever the
expression and the last result are. -/
theorem evaluate_eq_evaluateByTree (ans : Option Float) (t : Text) :
    evaluate ans t = evaluateByTree ans t := by
  rw [evaluate_eq, evaluateByTree, checkComplete]
  cases incompleteness? t with
  | some fault => rfl
  | none =>
      rw [← treeValue_strip, treeValue, Token.ofExpression, Token.scan]
      cases Token.ofChars none t.strip with
      | error fault => rfl
      | ok tokens => exact (mapError_withoutEquation _ t).symm

end PocketCalculator
