import Mathlib.Data.List.Chain
import PocketCalculator.Token.Product
import PocketCalculator.Proofs.Evaluation.Reading
import PocketCalculator.Proofs.Token.Steps

/-! # Products that are implied

A product is implied between two neighbours of which the left one ends an operand and the right one
starts one.  `multiplied` says so of every place between two tokens, and `withProducts` computes it
(`withProducts_eq_multiplied`) unless two numbers stand side by side.

A text without blanks writes no such numbers (`isChain_of_scan`): the first one would go on with the
characters of the second, and behind a number a minus is no sign. -/

namespace PocketCalculator.Token

/-! ### Places of products -/

/-- Whether a token ends an operand. -/
def endsOperand : Token → Bool
  | number _ | ans | closing | suffix _ => true
  | _ => false

/-- Whether a token starts an operand. -/
def startsOperand : Token → Bool
  | number _ | ans | opening | circular _ | root | marker _ => true
  | _ => false

/-- What is written between a token and the one behind it, if there is one. -/
def productBehind (left : Token) (right : Option Token) : List Token :=
  if left.endsOperand ∧ right.any startsOperand then [multiplicative .times] else []

/-- The tokens with a sign of multiplication at every place that asks for one, and nowhere else. -/
def multiplied (ts : List Token) : List Token :=
  (ts.zip (ts.tail.map some ++ [none])).flatMap fun p => p.1 :: productBehind p.1 p.2

variable {a b s r : Token} {ts front back : List Token}

theorem multiplied_singleton (s : Token) : multiplied [s] = [s] := by
  simp [multiplied, productBehind]

theorem multiplied_cons_cons (s r : Token) (ts : List Token) :
    multiplied (s :: r :: ts) = s :: productBehind s (some r) ++ multiplied (r :: ts) := by
  simp [multiplied]

theorem exists_multiplied_cons (s : Token) (ts : List Token) :
    ∃ us, multiplied (s :: ts) = s :: us := by
  cases ts with
  | nil => exact ⟨[], multiplied_singleton s⟩
  | cons r ts => exact ⟨_, multiplied_cons_cons s r ts⟩

/-- The places in front of two neighbours and behind them do not depend on each other. -/
theorem multiplied_append (front : List Token) (a b : Token) (back : List Token) :
    multiplied (front ++ a :: b :: back) =
      multiplied (front ++ [a]) ++ productBehind a (some b) ++ multiplied (b :: back) := by
  induction front with
  | nil =>
      rw [List.nil_append, List.nil_append, multiplied_cons_cons, multiplied_singleton]
      rfl
  | cons s front ih =>
      cases front with
      | nil =>
          simp only [List.cons_append, List.nil_append] at ih ⊢
          rw [multiplied_cons_cons s a (b :: back), ih, multiplied_cons_cons s a []]
          simp only [List.append_assoc]
      | cons r front =>
          simp only [List.cons_append] at ih ⊢
          rw [multiplied_cons_cons s r, ih, multiplied_cons_cons s r]
          simp only [List.append_assoc]

theorem exists_multiplied_concat (front : List Token) (a : Token) :
    ∃ us, multiplied (front ++ [a]) = us ++ [a] := by
  induction front with
  | nil => exact ⟨[], multiplied_singleton a⟩
  | cons s front ih =>
      obtain ⟨us, hus⟩ := ih
      cases front with
      | nil =>
          rw [List.singleton_append, multiplied_cons_cons, multiplied_singleton]
          exact ⟨_, rfl⟩
      | cons r front =>
          simp only [List.cons_append] at hus ⊢
          rw [multiplied_cons_cons s r, hus]
          exact ⟨_, (List.append_assoc _ us [a]).symm⟩

theorem isChain_multiplied (ts : List Token) : (multiplied ts).IsChain fun left right =>
    ¬(left.endsOperand = true ∧ right.startsOperand = true) := by
  induction ts with
  | nil => exact .nil
  | cons s ts ih =>
      cases ts with
      | nil =>
          rw [multiplied_singleton]
          exact .singleton s
      | cons r ts =>
          obtain ⟨us, hus⟩ := exists_multiplied_cons r ts
          rw [multiplied_cons_cons, productBehind]
          rw [hus] at ih ⊢
          split
          · exact .cons_cons (fun h => by cases h.2) (.cons_cons (fun h => by cases h.1) ih)
          · rename_i h
            exact .cons_cons h ih

/-! ### Numbers side by side -/

/-- Two tokens that are not both numbers. -/
def Apart (left right : Token) : Prop :=
  ∀ m n, ¬(left = number m ∧ right = number n)

theorem impliesProduct_eq (h : Apart s r) :
    impliesProduct s r = (s.endsOperand && r.startsOperand) := by
  cases s with
  | number m =>
      cases r with
      | number n => exact absurd ⟨rfl, rfl⟩ (h m n)
      | _ => rfl
  | _ => cases r <;> rfl

theorem withProducts_eq_multiplied (h : ts.IsChain Apart) : withProducts ts = multiplied ts := by
  induction h with
  | nil => rfl
  | singleton s => rw [withProducts, multiplied_singleton]
  | @cons_cons s r ts hsr hs ih =>
      rw [withProducts, impliesProduct_eq hsr, ih, multiplied_cons_cons, productBehind]
      split <;> split <;> simp_all

theorem join_of_scanned {previous : Option Token} {t rest : Text}
    (h : Scanned previous t ts rest) (hblank : ∀ c ∈ t, isBlank c = false) : join ts = t := by
  rw [h.join_eq, List.filter_eq_self]
  intro c hc
  rw [hblank c hc]
  rfl

/-- Without blanks between them, two numbers would have been read off as one. -/
theorem isChain_of_scan {t : Text} (hscan : scan t = .ok ts) (hblank : ∀ c ∈ t, isBlank c = false) :
    ts.IsChain Apart := by
  rw [List.isChain_iff_forall_rel_of_append_cons_cons]
  rintro a b front back hts m n ⟨rfl, rfl⟩
  have hsplit : ts = (front ++ [number m]) ++ number n :: back := by
    rw [hts, List.append_assoc]
    rfl
  obtain ⟨u, v, rfl, hu, hs, -⟩ := (scan_eq_ok_iff.1 hscan).exists_number hsplit
  obtain ⟨w, x, rfl, hw, -, hr⟩ := hu.exists_number rfl
  -- nothing stands between the two, since their texts and the one before spell all of it
  have hx : x = [] := by
    have hjoin := join_of_scanned hu fun c hc =>
      hblank c (List.mem_append_left v (List.mem_append_left n.text hc))
    have hjoin' := join_of_scanned hw fun c hc => hblank c <| List.mem_append_left v <|
      List.mem_append_left n.text <| List.mem_append_left x <| List.mem_append_left m.text hc
    rw [join, List.flatMap_append, List.flatMap_singleton] at hjoin
    rw [join] at hjoin'
    rw [hjoin'] at hjoin
    exact List.self_eq_append_right.1 hjoin
  -- behind a number a minus is no sign
  have hn : n.negative = false := by
    rw [List.getLast?_concat] at hs
    exact Bool.eq_false_iff.2 fun h => Bool.false_ne_true (hs h)
  obtain ⟨c, hc, hnum⟩ := n.exists_head?_text hn
  rw [hx, List.nil_append, List.head?_append, hc] at hr
  rw [hr c rfl] at hnum
  cases hnum

/-! ### Expressions -/

/-- An expression without blanks has a sign of multiplication wherever an operand ends and another
one begins, and at no other place.  So none stands behind the name of a function or a prefix: what
follows it in the expression follows it in the result. -/
theorem ofExpression_multiplied {t : Text} (hscan : scan t = .ok ts)
    (hblank : ∀ c ∈ t, isBlank c = false) :
    ofExpression t = .ok (multiplied ts) ∧
    ((multiplied ts).IsChain fun left right =>
      ¬(left.endsOperand = true ∧ right.startsOperand = true)) ∧
    ∀ front a b back, ts = front ++ a :: b :: back →
      ((∃ f, a = circular f) ∨ a = root ∨ ∃ m, a = marker m) →
      ∃ before after, multiplied (front ++ [a]) = before ++ [a] ∧
        multiplied (b :: back) = b :: after ∧ multiplied ts = before ++ a :: b :: after := by
  refine ⟨?_, isChain_multiplied ts, ?_⟩
  · rw [ofExpression, hscan, ← withProducts_eq_multiplied (isChain_of_scan hscan hblank)]
    rfl
  · rintro front a b back rfl ha
    obtain ⟨before, hbefore⟩ := exists_multiplied_concat front a
    obtain ⟨after, hafter⟩ := exists_multiplied_cons b back
    refine ⟨before, after, hbefore, hafter, ?_⟩
    have hnone : productBehind a (some b) = [] := by
      rcases ha with ⟨f, rfl⟩ | rfl | ⟨m, rfl⟩ <;> rfl
    rw [multiplied_append, hbefore, hafter, hnone, List.append_nil, List.append_assoc]
    rfl

/-- A blank keeps two numbers apart, and no product is implied between them. -/
example : (ofExpression ['1', ' ', '2']).toOption.map (fun ts => ts.map text) =
    some [['1'], ['2']] := by
  decide +kernel

theorem ofExpression_multiplied_juxtaposed :
    ∃ ts, scan ['2', '√', '9', 'a', 'n', 's'] = .ok ts ∧
      ofExpression ['2', '√', '9', 'a', 'n', 's'] = .ok (multiplied ts) ∧
      (multiplied ts).map text = [['2'], ['×'], ['√'], ['9'], ['×'], ['a', 'n', 's']] := by
  have key : (scan ['2', '√', '9', 'a', 'n', 's']).toOption.map (fun ts =>
      (multiplied ts).map text) =
        some [['2'], ['×'], ['√'], ['9'], ['×'], ['a', 'n', 's']] := by
    decide +kernel
  have hblank : ['2', '√', '9', 'a', 'n', 's'].all (fun c => isBlank c = false) = true := by decide
  obtain ⟨ts, hts, htexts⟩ := Option.map_eq_some_iff.1 key
  have hscan := eq_ok_of_toOption hts
  have hproducts := ofExpression_multiplied hscan fun c hc =>
    of_decide_eq_true (List.all_eq_true.1 hblank c hc)
  exact ⟨ts, hscan, hproducts.1, htexts⟩

end PocketCalculator.Token
