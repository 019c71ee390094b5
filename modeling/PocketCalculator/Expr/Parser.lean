import PocketCalculator.Expr

/-! # From tokens to expressions

An expression is a chain of operands joined by operators.  Every operand is read by one recursion on
the tokens, `Expr.operand`, which knows from its level what may come first: a sign, a marker, or
neither.  Parentheses hold a single operand.  The chain is then put together on two levels, both
from the left (`Expr.ofChain`), and a quotient that is the whole expression becomes a fraction.

`Expr.length_of_operand` says that an operand takes at least one token; the loop over the chain ends
because of it. -/

namespace PocketCalculator

/-- What an operand may start with. -/
inductive OperandLevel where
  /-- A sign, a marker, or what comes below. -/
  | signed
  /-- A marker, or what comes below. -/
  | marked
  /-- A root or a unit, without the suffixes behind it. -/
  | rooted
  deriving DecidableEq, Repr

namespace Expr

/-! ### Operands -/

/-- A sign in front of an operand.  The sign of a literal is taken into the literal. -/
def withSign : Additive → Expr → Expr
  | .plus, e => e
  | .minus, literal x => literal (-x)
  | .minus, e => neg e

/-- The suffixes behind an operand, applied from the left. -/
def withSuffixes (e : Expr) : List Token → Expr × List Token
  | .suffix s :: rest => withSuffixes (apply (.suffix s) e) rest
  | rest => (e, rest)

/-- The parenthesis that closes a group behind its operand. -/
def closeGroup (e : Expr) : List Token → Except Fault (Expr × List Token)
  | .closing :: rest => .ok (e, rest)
  | t :: _ => .error (if t.isOperator then .severalOperands else .missingClosing)
  | [] => .error .missingClosing

/-- The last result as an operand. -/
def ofAns : Option Float → Except Fault Expr
  | some x => .ok (literal x)
  | none => .error .ansUnset

/-- Applies a function to the operand just read. -/
def applied (f : Function) (r : Expr × List Token) : Expr × List Token :=
  (apply f r.1, r.2)

/-- Applies a function to the opposite of the operand just read. -/
def appliedToNeg (f : Function) (r : Expr × List Token) : Expr × List Token :=
  (apply f (neg r.1), r.2)

/-- Reads the suffixes behind the operand just read, on a level that has them. -/
def finish (level : OperandLevel) (r : Expr × List Token) : Expr × List Token :=
  match level with
  | .rooted => r
  | _ => withSuffixes r.1 r.2

/-- Reads one operand, given the last result. -/
def operand (ans : Option Float) :
    OperandLevel → List Token → Except Fault (Expr × List Token)
  | _, [] => .error .missingNumber
  | level, t :: rest =>
    match t with
    | .additive op =>
      match level with
      | .signed => do
        let r ← operand ans .signed rest
        return (withSign op r.1, r.2)
      | _ => .error .missingNumber
    | .marker m =>
      match level with
      | .rooted => .error (.unexpectedToken m.text)
      | _ =>
        match rest with
        | .additive .minus :: rest' => do
          return appliedToNeg (.marker m) (← operand ans .marked rest')
        | rest => do return applied (.marker m) (← operand ans .marked rest)
    | .root =>
      match rest with
      | .marker m :: rest' => do
        return finish level (applied .root (← operand ans .marked (.marker m :: rest')))
      | .additive .minus :: rest' => do
        return finish level (appliedToNeg .root (← operand ans .rooted rest'))
      | rest => do return finish level (applied .root (← operand ans .rooted rest))
    | .number n => do return finish level (literal (← n.value), rest)
    | .ans => do return finish level (← ofAns ans, rest)
    | .blank => .ok (finish level (blank, rest))
    | .circular f =>
      match rest with
      | .opening :: .closing :: _ => .error (.emptyGroup (some f.text))
      | .opening :: rest' => do
        let r ← operand ans .signed rest'
        return finish level (applied (.circular f) (← closeGroup r.1 r.2))
      | _ => .error (.missingOpening f.text)
    | .opening =>
      match rest with
      | .closing :: _ => .error (.emptyGroup none)
      | rest => do
        let r ← operand ans .signed rest
        return finish level (← closeGroup r.1 r.2)
    | .multiplicative _ | .suffix _ | .closing => .error .missingNumber
    | .other t => .error (.unexpectedToken t)

theorem operand_minus {ans : Option Float} {level : OperandLevel} (hl : level ≠ .signed)
    (ts : List Token) : operand ans level (.additive .minus :: ts) = .error .missingNumber := by
  rw [operand]
  exact hl

theorem operand_closing {ans : Option Float} {level : OperandLevel} (ts : List Token) :
    operand ans level (.closing :: ts) = .error .missingNumber := by
  rw [operand]

/-! ### Operands take tokens -/

theorem length_withSuffixes (e : Expr) (ts : List Token) :
    (withSuffixes e ts).2.length ≤ ts.length := by
  fun_induction withSuffixes e ts with
  | case1 e s rest ih => simp only [List.length_cons]; omega
  | case2 e rest => exact Nat.le_refl _

theorem length_finish (level : OperandLevel) (r : Expr × List Token) :
    (finish level r).2.length ≤ r.2.length := by
  cases level with
  | rooted => exact Nat.le_refl _
  | signed => exact length_withSuffixes r.1 r.2
  | marked => exact length_withSuffixes r.1 r.2

theorem length_of_closeGroup {e : Expr} {ts : List Token} {r : Expr × List Token}
    (h : closeGroup e ts = .ok r) : r.2.length < ts.length := by
  unfold closeGroup at h
  split at h <;> cases h
  simp

theorem exists_of_bind_eq_ok {ε α β : Type} {x : Except ε α} {f : α → Except ε β} {b : β}
    (h : x >>= f = .ok b) : ∃ a, x = .ok a ∧ f a = .ok b := by
  cases x with
  | error e => cases h
  | ok a => exact ⟨a, rfl, h⟩

theorem exists_of_bind_pure_eq_ok {ε α β : Type} {x : Except ε α} {f : α → β} {b : β}
    (h : (do return f (← x)) = Except.ok b) : ∃ a, x = .ok a ∧ f a = b := by
  obtain ⟨a, ha, hb⟩ := exists_of_bind_eq_ok h
  exact ⟨a, ha, Except.ok.inj hb⟩

/-- What is made of an operand that has been read leaves no more tokens over than the operand. -/
theorem length_of_made {x : Except Fault (Expr × List Token)} {n : Nat} {r : Expr × List Token}
    {f : Expr × List Token → Expr × List Token} (hx : ∀ {a}, x = .ok a → a.2.length < n)
    (h : (do return f (← x)) = Except.ok r) (hf : ∀ a, (f a).2.length ≤ a.2.length) :
    r.2.length < n := by
  obtain ⟨a, ha, rfl⟩ := exists_of_bind_pure_eq_ok h
  exact Nat.lt_of_le_of_lt (hf a) (hx ha)

/-- A group takes its closing parenthesis besides. -/
theorem length_of_group {x : Except Fault (Expr × List Token)} {n : Nat} {r : Expr × List Token}
    {f : Expr × List Token → Expr × List Token} (hx : ∀ {a}, x = .ok a → a.2.length < n)
    (h : (x >>= fun a => do return f (← closeGroup a.1 a.2)) = .ok r)
    (hf : ∀ a, (f a).2.length ≤ a.2.length) : r.2.length < n := by
  obtain ⟨a, ha, h⟩ := exists_of_bind_eq_ok h
  obtain ⟨b, hb, rfl⟩ := exists_of_bind_pure_eq_ok h
  exact Nat.lt_of_le_of_lt (hf b) (Nat.lt_trans (length_of_closeGroup hb) (hx ha))

/-- An operand takes at least one token. -/
theorem length_of_operand {ans : Option Float} {level : OperandLevel} {ts : List Token}
    {r : Expr × List Token} (h : operand ans level ts = .ok r) : r.2.length < ts.length := by
  fun_induction operand ans level ts generalizing r
  -- a sign
  case case2 ih => exact Nat.lt_succ_of_lt (length_of_made ih h fun _ => Nat.le_refl _)
  -- a marker, with a minus behind it or without one
  case case5 ih =>
    have hlt := length_of_made ih h fun _ => Nat.le_refl _
    exact Nat.lt_succ_of_lt (Nat.lt_succ_of_lt hlt)
  case case6 ih => exact Nat.lt_succ_of_lt (length_of_made ih h fun _ => Nat.le_refl _)
  -- a root, in front of a marker, a minus or another operand
  case case7 ih => exact Nat.lt_succ_of_lt (length_of_made ih h fun _ => length_finish _ _)
  case case8 ih =>
    have hlt := length_of_made ih h fun _ => length_finish _ _
    exact Nat.lt_succ_of_lt (Nat.lt_succ_of_lt hlt)
  case case9 ih => exact Nat.lt_succ_of_lt (length_of_made ih h fun _ => length_finish _ _)
  -- a number, the last result, a blank
  case case10 | case11 =>
    obtain ⟨a, -, rfl⟩ := exists_of_bind_pure_eq_ok h
    exact Nat.lt_of_le_of_lt (length_finish _ _) (Nat.lt_succ_self _)
  case case12 =>
    cases h
    exact Nat.lt_of_le_of_lt (length_finish _ _) (Nat.lt_succ_self _)
  -- a group, with a function in front of it or without one
  case case14 ih =>
    have hlt := length_of_group ih h fun _ => length_finish _ _
    exact Nat.lt_succ_of_lt (Nat.lt_succ_of_lt hlt)
  case case17 ih => exact Nat.lt_succ_of_lt (length_of_group ih h fun _ => length_finish _ _)
  all_goals cases h

/-! ### Chains -/

/-- The operators and operands behind the first operand, and the tokens left over. -/
def chainAfter (ans : Option Float) (ts : List Token) :
    Except Fault (List (Operator × Expr) × List Token) :=
  match ts with
  | [] => .ok ([], [])
  | t :: rest =>
    match t.operator? with
    | none => .ok ([], t :: rest)
    | some op =>
      match _h : operand ans .signed rest with
      | .error fault => .error fault
      | .ok (e, rest') => do
        let (more, left) ← chainAfter ans rest'
        return ((op, e) :: more, left)
termination_by ts.length
decreasing_by
  have hl : rest'.length < rest.length := length_of_operand _h
  simp only [List.length_cons]
  omega

/-- Joins a finished term to the sum before it. -/
def joinTerm : Option (Expr × Additive) → Expr → Expr
  | none, term => term
  | some (sum, op), term => binary (.additive op) sum term

/-- Puts a chain together on two levels, both from the left: `sum` is what stands before the
current term, and `term` is the current term so far. -/
def ofChain (sum : Option (Expr × Additive)) (term : Expr) : List (Operator × Expr) → Expr
  | [] => joinTerm sum term
  | (.additive op, e) :: rest => ofChain (some (joinTerm sum term, op)) e rest
  | (.multiplicative op, e) :: rest => ofChain sum (binary (.multiplicative op) term e) rest

/-- A quotient whose left side is a single operand becomes a fraction. -/
def toFraction : Expr → Expr
  | binary (.multiplicative op) l r =>
    if op.divides && !l.isBinary then fraction l r else binary (.multiplicative op) l r
  | e => e

/-- The expression that a list of tokens writes, given the last result. -/
def ofTokens (ans : Option Float) (ts : List Token) : Except Fault Expr := do
  let (first, rest) ← operand ans .signed ts
  let (more, left) ← chainAfter ans rest
  if left ≠ [] then throw (.leftover (Token.join left))
  return (ofChain none first more).toFraction

end Expr
end PocketCalculator
