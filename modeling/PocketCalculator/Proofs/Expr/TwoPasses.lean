import PocketCalculator.Expr.Parser
import Mathlib.Data.List.Forall2

/-! # Chains of values in two passes

A chain of values is reduced in two passes, both from the left: the first one does the products and
quotients (`products`), the second one the sums and differences (`sums`).  A quotient by zero has no
value, and `hasZeroDivisor` tells whether the first pass comes across one; its divisors are values
of the chain itself, since a quotient divides by the single value on its right.

`value_ofChain` says that the tree of a chain has the value of the two passes, and that its only
fault is the division by zero. -/

namespace PocketCalculator

/-! ### The two passes -/

/-- A sum or a difference. -/
def Additive.combine : Additive → Float → Float → Float
  | .plus, x, y => x + y
  | .minus, x, y => x - y

/-- A product or a quotient. -/
def Multiplicative.combine (op : Multiplicative) (x y : Float) : Float :=
  if op.divides then x / y else x * y

/-- The first pass: the first term, and the other ones behind their operators. -/
def products (x : Float) : List (Operator × Float) → Float × List (Additive × Float)
  | [] => (x, [])
  | (.additive op, y) :: more => (x, (op, (products y more).1) :: (products y more).2)
  | (.multiplicative op, y) :: more => products (op.combine x y) more

/-- The second pass. -/
def sums (x : Float) (terms : List (Additive × Float)) : Float :=
  terms.foldl (fun s q => q.1.combine s q.2) x

/-- Both passes. -/
def twoPasses (x : Float) (more : List (Operator × Float)) : Float :=
  sums (products x more).1 (products x more).2

/-- Whether an operator divides by this value, and the value is zero. -/
def dividesByZero : Operator → Float → Bool
  | .additive _, _ => false
  | .multiplicative op, y => op.divides && y == 0

/-- Whether the first pass divides by zero. -/
def hasZeroDivisor (more : List (Operator × Float)) : Bool :=
  more.any fun q => dividesByZero q.1 q.2

theorem apply_multiplicative (op : Multiplicative) (x y : Float) :
    (Operator.multiplicative op).apply x y =
      if dividesByZero (.multiplicative op) y then .error .divisionByZero
      else .ok (op.combine x y) := by
  rw [Operator.apply, Multiplicative.combine, dividesByZero]
  cases op.divides with
  | false => rfl
  | true => rw [if_pos rfl, if_pos rfl, divide, Bool.true_and]

theorem apply_additive (op : Additive) (x y : Float) :
    (Operator.additive op).apply x y = .ok (op.combine x y) := by
  cases op <;> rfl

namespace Expr

/-! ### The value of a chain -/

variable {sum : Option (Expr × Additive)} {term e : Expr} {fault : Fault}

theorem value_binary {op : Operator} {l r : Expr} {x y : Float} (hl : l.value = .ok x)
    (hr : r.value = .ok y) : (binary op l r).value = op.apply x y := by
  rw [value, hl, hr]
  rfl

theorem value_binary_of_error {op : Operator} {l : Expr} (r : Expr) (hl : l.value = .error fault) :
    (binary op l r).value = .error fault := by
  rw [value, hl]
  rfl

theorem value_binary_of_error_right {op : Operator} {l r : Expr} {x : Float} (hl : l.value = .ok x)
    (hr : r.value = .error fault) : (binary op l r).value = .error fault := by
  rw [value, hl, hr]
  rfl

/-- The sum in front of the current term has a value, and `f` joins the value of a term to it. -/
def Joins : Option (Expr × Additive) → (Float → Float) → Prop
  | none, f => f = id
  | some (s, op), f => ∃ x, s.value = .ok x ∧ f = op.combine x

theorem Joins.value_ok {f : Float → Float} {y : Float} (h : Joins sum f) (ht : term.value = .ok y) :
    (joinTerm sum term).value = .ok (f y) := by
  cases sum with
  | none =>
      cases h
      exact ht
  | some s =>
      obtain ⟨x, hs, rfl⟩ := h
      rw [joinTerm, value_binary hs ht, apply_additive]

theorem Joins.value_error {f : Float → Float} (h : Joins sum f) (ht : term.value = .error fault) :
    (joinTerm sum term).value = .error fault := by
  cases sum with
  | none => exact ht
  | some s =>
      obtain ⟨x, hs, -⟩ := h
      exact value_binary_of_error_right hs ht

/-- A fault of the sum in front of the current term stays. -/
theorem value_ofChain_of_sum_error {s : Expr} (op : Additive) (h : s.value = .error fault)
    (term : Expr) (more : List (Operator × Expr)) :
    (ofChain (some (s, op)) term more).value = .error fault := by
  induction more generalizing s op term with
  | nil => exact value_binary_of_error term h
  | cons q more ih =>
      obtain ⟨op', e⟩ := q
      cases op' with
      | additive op' => exact ih op' (value_binary_of_error term h) e
      | multiplicative op' => exact ih op h _

theorem value_ofChain_of_term_error {f : Float → Float} (hs : Joins sum f)
    (h : term.value = .error fault) (more : List (Operator × Expr)) :
    (ofChain sum term more).value = .error fault := by
  induction more generalizing term with
  | nil => exact hs.value_error h
  | cons q more ih =>
      obtain ⟨op, e⟩ := q
      cases op with
      | additive op => exact value_ofChain_of_sum_error op (hs.value_error h) e more
      | multiplicative op => exact ih (value_binary_of_error e h)

/-- Operands with values, behind their operators. -/
def Valued (more : List (Operator × Expr)) (values : List (Operator × Float)) : Prop :=
  List.Forall₂ (fun q r => q.1 = r.1 ∧ q.2.value = .ok r.2) more values

theorem value_ofChain_of_joins {f : Float → Float} {more : List (Operator × Expr)}
    {values : List (Operator × Float)} (hm : Valued more values) {y : Float} (hs : Joins sum f)
    (ht : term.value = .ok y) :
    (ofChain sum term more).value =
      if hasZeroDivisor values then .error .divisionByZero
      else .ok (sums (f (products y values).1) (products y values).2) := by
  induction hm generalizing sum term f y with
  | nil => exact hs.value_ok ht
  | @cons q r more values hq hm ih =>
      obtain ⟨op, e⟩ := q
      obtain ⟨op', z⟩ := r
      obtain ⟨rfl, he⟩ := hq
      cases op with
      | additive op => exact ih ⟨f y, hs.value_ok ht, rfl⟩ he
      | multiplicative op =>
          have hv : (binary (.multiplicative op) term e).value = _ := value_binary ht he
          rw [apply_multiplicative] at hv
          rw [hasZeroDivisor, List.any_cons]
          cases hd : dividesByZero (.multiplicative op) z with
          | true =>
              rw [hd, if_pos rfl] at hv
              rw [Bool.true_or, if_pos rfl]
              exact value_ofChain_of_term_error hs hv more
          | false =>
              rw [hd, if_neg Bool.false_ne_true] at hv
              rw [Bool.false_or]
              exact ih hs hv

/-- The tree of a chain has the value of the two passes; its only fault is the division by zero. -/
theorem value_ofChain {first : Expr} {x : Float} {more : List (Operator × Expr)}
    {values : List (Operator × Float)} (hx : first.value = .ok x) (hm : Valued more values) :
    (ofChain none first more).value =
      if hasZeroDivisor values then .error .divisionByZero else .ok (twoPasses x values) :=
  value_ofChain_of_joins hm (f := id) rfl hx

theorem value_toFraction (e : Expr) : e.toFraction.value = e.value := by
  unfold toFraction
  split
  · rename_i op l r
    split
    · rename_i h
      rw [Bool.and_eq_true] at h
      simp only [value, Operator.apply, h.1, if_true]
    · rfl
  · rfl

end Expr
end PocketCalculator
