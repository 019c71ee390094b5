import PocketCalculator.Proofs.Expr.Parsing
import PocketCalculator.Proofs.Expr.TwoPasses
import PocketCalculator.Proofs.Number.Numerals

/-! # A sign and a zero in front

An expression that begins with a sign is the same sum as the one in which a zero stands in front of
the sign, and the sign has become an operator.  The first operand loses its sign, but the first term
as a whole takes it back when it is added to the zero (`twoPasses_signed`).  What can differ is the
sign of a zero.

`exists_value_zero` carries this over to the trees that tokens write.  A minus is either a token of
its own (`exists_value_sign`) or a part of the number behind it (`exists_value_negative`); in the
second case only a suffix that commutes with the sign may follow, as the percent does. -/

namespace PocketCalculator

/-! ### Values -/

/-- A sign in front of a value. -/
def Additive.signed : Additive → Float → Float
  | .plus, x => x
  | .minus, x => -x

theorem Multiplicative.combine_neg (op : Multiplicative) (x y : Float) :
    op.combine (-x) y = -op.combine x y := by
  unfold combine
  split
  · exact double_neg_div x y
  · exact double_neg_mul x y

theorem products_neg (x : Float) (more : List (Operator × Float)) :
    products (-x) more = (-(products x more).1, (products x more).2) := by
  induction more generalizing x with
  | nil => rfl
  | cons q more ih =>
      obtain ⟨op, y⟩ := q
      cases op with
      | additive op => rfl
      | multiplicative op =>
          have h := ih (op.combine x y)
          rw [← op.combine_neg] at h
          exact h

theorem products_signed (op : Additive) (x : Float) (more : List (Operator × Float)) :
    products (op.signed x) more = (op.signed (products x more).1, (products x more).2) := by
  cases op with
  | plus => rfl
  | minus => exact products_neg x more

theorem EqUpToZero.combine {x y : Float} (h : EqUpToZero x y) (op : Additive) (z : Float) :
    EqUpToZero (op.combine x z) (op.combine y z) := by
  cases op with
  | plus => exact h.add_right z
  | minus =>
      have hs := h.add_right (-z)
      rw [← double_sub_eq_add_neg, ← double_sub_eq_add_neg] at hs
      exact hs

theorem EqUpToZero.sums {x y : Float} (h : EqUpToZero x y) (terms : List (Additive × Float)) :
    EqUpToZero (sums x terms) (sums y terms) := by
  induction terms generalizing x y with
  | nil => exact h
  | cons q terms ih => exact ih (h.combine q.1 q.2)

/-- A value joined to zero takes the operator as its sign. -/
theorem eqUpToZero_combine_zero (op : Additive) (x : Float) :
    EqUpToZero (op.combine 0 x) (op.signed x) := by
  have h0 : ((0 : Float) == 0) = true := beq_zero_iff.2 ⟨_, unpack_zero⟩
  cases op with
  | plus => exact eqUpToZero_zero_add h0 x
  | minus =>
      have h := eqUpToZero_zero_add h0 (-x)
      rw [← double_sub_eq_add_neg] at h
      exact h

/-- The sign of the first value may become an operator behind a zero. -/
theorem twoPasses_signed (op : Additive) (x : Float) (more : List (Operator × Float)) :
    EqUpToZero (twoPasses 0 ((.additive op, x) :: more)) (twoPasses (op.signed x) more) := by
  have hl : twoPasses 0 ((.additive op, x) :: more) =
      sums (op.combine 0 (products x more).1) (products x more).2 := rfl
  have hr : twoPasses (op.signed x) more =
      sums (op.signed (products x more).1) (products x more).2 := by
    rw [twoPasses, products_signed]
  rw [hl, hr]
  exact (eqUpToZero_combine_zero op _).sums _

namespace Expr

/-! ### Chains with a value -/

variable {sum : Option (Expr × Additive)} {term e : Expr} {more : List (Operator × Expr)}

theorem exists_value_binary {op : Operator} {l r : Expr} {v : Float}
    (h : (binary op l r).value = .ok v) : (∃ x, l.value = .ok x) ∧ ∃ y, r.value = .ok y := by
  rw [value] at h
  obtain ⟨x, hx, h⟩ := exists_of_bind_eq_ok h
  obtain ⟨y, hy, -⟩ := exists_of_bind_eq_ok h
  exact ⟨⟨x, hx⟩, y, hy⟩

theorem exists_value_joinTerm {v : Float} (h : (joinTerm sum term).value = .ok v) :
    ∃ x, term.value = .ok x := by
  cases sum with
  | none => exact ⟨v, h⟩
  | some s => exact (exists_value_binary h).2

theorem exists_valued_of_value {v : Float} (h : (ofChain sum term more).value = .ok v) :
    (∃ x, term.value = .ok x) ∧ ∃ values, Valued more values := by
  induction more generalizing sum term with
  | nil => exact ⟨exists_value_joinTerm h, [], .nil⟩
  | cons q more ih =>
      obtain ⟨op, e⟩ := q
      cases op with
      | additive op =>
          obtain ⟨⟨y, hy⟩, values, hm⟩ := ih h
          have hterm : ∃ x, term.value = .ok x := by
            cases hj : (joinTerm sum term).value with
            | ok x => exact exists_value_joinTerm hj
            | error fault =>
                cases (value_ofChain_of_sum_error op hj e more).symm.trans h
          exact ⟨hterm, (_, y) :: values, .cons ⟨rfl, hy⟩ hm⟩
      | multiplicative op =>
          obtain ⟨⟨z, hz⟩, values, hm⟩ := ih h
          obtain ⟨hx, y, hy⟩ := exists_value_binary hz
          exact ⟨hx, (_, y) :: values, .cons ⟨rfl, hy⟩ hm⟩

/-! ### Operands with a sign -/

theorem exists_value_withSign {op : Additive} {x : Float} (h : (withSign op e).value = .ok x) :
    ∃ y, e.value = .ok y ∧ x = op.signed y := by
  cases op with
  | plus => exact ⟨x, h, rfl⟩
  | minus =>
      have hneg : (withSign .minus e).value = e.neg.value := by
        cases e <;> rfl
      rw [hneg, value] at h
      obtain ⟨y, hy, h⟩ := exists_of_bind_eq_ok h
      cases h
      exact ⟨y, hy, rfl⟩

/-- A percent commutes with the sign. -/
theorem value_withSuffixes_neg {ts : List Token} (h : ∀ s, .suffix s ∈ ts → s = .percent)
    {e e' : Expr} {x : Float} (he : e.value = .ok (-x)) (he' : e'.value = .ok x) :
    ∃ y, (withSuffixes e ts).1.value = .ok (-y) ∧ (withSuffixes e' ts).1.value = .ok y ∧
      (withSuffixes e ts).2 = (withSuffixes e' ts).2 := by
  fun_induction withSuffixes e ts generalizing e' x with
  | case1 e s rest ih =>
      cases h s List.mem_cons_self
      refine ih (fun s hs => h s (List.mem_cons_of_mem _ hs)) (x := x / 100) ?_ ?_
      · rw [value, he, ← double_neg_div]
        rfl
      · rw [value, he']
        rfl
  | case2 e rest hrest =>
      have hn : withSuffixes e' rest = (e', rest) := by
        rw [withSuffixes]
        exact hrest
      rw [hn]
      exact ⟨x, he, he', rfl⟩

/-! ### Zeros in front -/

variable {ans : Option Float} {ts us : List Token} {n m : Numeral} {v : Float}

/-- A number may be written in another way. -/
theorem ofTokens_number {x : Float} (hn : n.value = .ok x) (hm : m.value = .ok x) :
    ofTokens ans (.number n :: ts) = ofTokens ans (.number m :: ts) := by
  rw [ofTokens, ofTokens, operand, operand, hn, hm]

/-- Where the operand `a` with a sign begins a chain with a value, a zero in front of it makes the
sign an operator and keeps the value up to the sign of zero. -/
theorem exists_value_zero {first a : Expr} {op : Additive} {x : Float} (hn : n.value = .ok 0)
    (ha : operand ans .signed ts = .ok (a, us)) (hm : chainAfter ans us = .ok (more, []))
    (hfirst : first.value = .ok (op.signed x)) (hx : a.value = .ok x)
    (hv : (ofChain none first more).value = .ok v) :
    ∃ w, (ofTokens ans (.number n :: .additive op :: ts)).bind value = .ok w ∧
      EqUpToZero w v := by
  obtain ⟨-, values, hvalues⟩ := exists_valued_of_value hv
  rw [value_ofChain hfirst hvalues] at hv
  cases hz : hasZeroDivisor values with
  | true =>
      rw [hz] at hv
      cases hv
  | false =>
      rw [hz] at hv
      cases hv
      have ho : operand ans .signed (.number n :: .additive op :: ts) =
          .ok (literal 0, .additive op :: ts) := by
        rw [operand, hn]
        rfl
      have hc : chainAfter ans (.additive op :: ts) = _ := chainAfter_cons rfl ha
      rw [hm] at hc
      have hm' : Valued ((.additive op, a) :: more) ((.additive op, x) :: values) :=
        .cons ⟨rfl, hx⟩ hvalues
      have h0 : (literal 0).value = .ok 0 := rfl
      have hw := value_ofChain h0 hm'
      have hz' : hasZeroDivisor ((.additive op, x) :: values) = false := hz
      rw [hz', if_neg Bool.false_ne_true] at hw
      refine ⟨_, ?_, twoPasses_signed op x values⟩
      rw [ofTokens_eq_ok_iff_chain.2 ⟨_, _, _, ho, hc, rfl⟩]
      exact (value_toFraction _).trans hw

theorem exists_chain_of_value (h : (ofTokens ans ts).bind value = .ok v) :
    ∃ first us more, operand ans .signed ts = .ok (first, us) ∧
      chainAfter ans us = .ok (more, []) ∧ (ofChain none first more).value = .ok v := by
  obtain ⟨e, he, hv⟩ := exists_of_bind_eq_ok h
  obtain ⟨first, us, more, ho, hc, rfl⟩ := ofTokens_eq_ok_iff_chain.1 he
  rw [value_toFraction] at hv
  exact ⟨first, us, more, ho, hc, hv⟩

/-- The sign is a token of its own. -/
theorem exists_value_sign {op : Additive} (hn : n.value = .ok 0)
    (h : (ofTokens ans (.additive op :: ts)).bind value = .ok v) :
    ∃ w, (ofTokens ans (.number n :: .additive op :: ts)).bind value = .ok w ∧
      EqUpToZero w v := by
  obtain ⟨first, us, more, ho, hc, hv⟩ := exists_chain_of_value h
  rw [operand] at ho
  obtain ⟨⟨a, us'⟩, ha, ho⟩ := exists_of_bind_eq_ok ho
  cases ho
  obtain ⟨⟨x, hx⟩, -⟩ := exists_valued_of_value hv
  obtain ⟨y, hy, rfl⟩ := exists_value_withSign hx
  exact exists_value_zero hn ha hc hx hy hv

/-- The sign is a part of the number behind it. -/
theorem exists_value_negative {n' : Numeral} (hn : n.value = .ok 0) (hneg : m.negative = true)
    (hpos : n'.negative = false) (hb : m.body = n'.body)
    (hs : ∀ s, .suffix s ∈ ts → s = .percent)
    (h : (ofTokens ans (.number m :: ts)).bind value = .ok v) :
    ∃ w, (ofTokens ans (.number n :: .additive .minus :: .number n' :: ts)).bind value = .ok w ∧
      EqUpToZero w v := by
  obtain ⟨first, us, more, ho, hc, hv⟩ := exists_chain_of_value h
  rw [operand] at ho
  obtain ⟨z, hz, ho⟩ := exists_of_bind_eq_ok ho
  obtain ⟨x, hx, rfl⟩ := Numeral.value_of_negative hneg hpos hb hz
  have hlit : ∀ z, (literal z).value = .ok z := fun _ => rfl
  obtain ⟨y, hy, hy', hus⟩ := value_withSuffixes_neg hs (hlit (-x)) (hlit x)
  have ha : operand ans .signed (.number n' :: ts) = .ok (withSuffixes (literal x) ts) := by
    rw [operand, hx]
    rfl
  have hfirst : withSuffixes (literal (-x)) ts = (first, us) := Except.ok.inj ho
  rw [hfirst] at hy hus
  dsimp only at hus
  rw [hus] at hc
  exact exists_value_zero hn ha hc hy hy' hv

end Expr
end PocketCalculator
