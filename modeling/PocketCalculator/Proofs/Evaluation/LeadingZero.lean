import PocketCalculator.Proofs.Evaluation.Reading
import PocketCalculator.Proofs.Expr.LeadingSign
import PocketCalculator.Proofs.Token.Steps

/-! # Zeros in front of an expression

Zeros in front of a number are left out without a trace (`treeValue_zeros`), and a zero in front of
a sign keeps the value up to the sign of zero (`treeValue_zero_cons`), as long as the percent is
the only suffix.  No operator of a term, no suffix and no closing parenthesis can come first
(`treeValue_ne_ok`). -/

namespace PocketCalculator

namespace Token

/-! ### Products -/

theorem mem_withProducts {ts : List Token} {s : Token} (h : s ∈ withProducts ts) :
    s ∈ ts ∨ s = multiplicative .times := by
  fun_induction withProducts ts with
  | case1 => cases h
  | case2 t => exact .inl h
  | case3 t u rest hp ih =>
      rcases List.mem_cons.1 h with rfl | h
      · exact .inl List.mem_cons_self
      · rcases List.mem_cons.1 h with rfl | h
        · exact .inr rfl
        · exact (ih h).imp_left (List.mem_cons_of_mem t)
  | case4 t u rest hp ih =>
      rcases List.mem_cons.1 h with rfl | h
      · exact .inl List.mem_cons_self
      · exact (ih h).imp_left (List.mem_cons_of_mem t)

theorem exists_withProducts_cons (s : Token) (ts : List Token) :
    ∃ us, withProducts (s :: ts) = s :: us := by
  cases ts with
  | nil => exact ⟨[], rfl⟩
  | cons t ts =>
      rw [withProducts]
      split
      · exact ⟨_, rfl⟩
      · exact ⟨_, rfl⟩

theorem withProducts_additive (op : Additive) (ts : List Token) :
    withProducts (additive op :: ts) = additive op :: withProducts ts := by
  cases ts with
  | nil => rfl
  | cons t ts => rfl

theorem exists_withProducts_number (ts : List Token) :
    ∃ us, (∀ n, withProducts (number n :: ts) = number n :: us) ∧
      ∀ s, .suffix s ∈ us → .suffix s ∈ ts := by
  cases ts with
  | nil => exact ⟨[], fun n => rfl, fun s hs => by cases hs⟩
  | cons t ts =>
      have hsuffix : ∀ s, .suffix s ∈ withProducts (t :: ts) → .suffix s ∈ t :: ts := by
        intro s hs
        rcases mem_withProducts hs with hs | hs
        · exact hs
        · cases hs
      cases hp : t.opensOperand || t == ans with
      | true =>
          refine ⟨multiplicative .times :: withProducts (t :: ts), fun n => ?_, fun s hs => ?_⟩
          · rw [withProducts, impliesProduct, hp, if_pos rfl]
          · rcases List.mem_cons.1 hs with hs | hs
            · cases hs
            · exact hsuffix s hs
      | false =>
          refine ⟨withProducts (t :: ts), fun n => ?_, hsuffix⟩
          rw [withProducts, impliesProduct, hp, if_neg Bool.false_ne_true]

end Token

/-! ### Zeros in front of a number -/

variable {ans : Option Float} {t tail : Text} {v : Float}

/-- Where a number in front of a text gives a value, the text has tokens, and they are the same
behind every other number. -/
theorem exists_tokens_behind_number {n : Numeral}
    (ht : ∀ c ∈ tail.head?, isNumeralChar c = false)
    (h : treeValue ans (n.text ++ tail) = .ok v) :
    ∃ ts, (∀ s, .suffix s ∈ ts → ∀ c ∈ s.text, c ∈ tail) ∧
      ∀ (m : Numeral) (previous : Option Token),
        (m.negative = true → Token.signAllowed previous = true) →
        Token.ofChars previous (m.text ++ tail) = .ok (.number m :: ts) := by
  have hn : n.negative = true → Token.signAllowed none = true := fun _ => rfl
  obtain ⟨us, hus, -⟩ := Expr.exists_of_bind_eq_ok h
  rw [Token.ofChars_numeral n hn ht] at hus
  cases hts : Token.ofChars (some (.number n)) tail with
  | error fault =>
      rw [hts] at hus
      cases hus
  | ok ts =>
      refine ⟨ts, fun s hs c hc => ((Token.scanned_iff.2 hts).infix_of_mem hs).subset hc,
        fun m previous hm => ?_⟩
      rw [Token.ofChars_numeral m hm ht, Token.ofChars_behind_number m n, hts]
      rfl

theorem exists_value_of_first {n : Numeral} {ts : List Token}
    (h : (Expr.ofTokens ans (.number n :: ts)).bind Expr.value = .ok v) : ∃ x, n.value = .ok x := by
  obtain ⟨first, us, more, ho, -, -⟩ := Expr.exists_chain_of_value h
  rw [Expr.operand] at ho
  obtain ⟨x, hx, -⟩ := Expr.exists_of_bind_eq_ok ho
  exact ⟨x, hx⟩

/-- Zeros in front of a number with a digit are left out without a trace. -/
theorem treeValue_zeros {n m : Numeral} {k : Nat} (hn : n.negative = false)
    (hm : m.negative = false) (hb : n.body = List.replicate k '0' ++ m.body)
    (hd : ∃ c ∈ m.body, isDecimalDigit c = true) (ht : ∀ c ∈ tail.head?, isNumeralChar c = false)
    (h : treeValue ans (n.text ++ tail) = .ok v) : treeValue ans (m.text ++ tail) = .ok v := by
  obtain ⟨ts, -, hts⟩ := exists_tokens_behind_number ht h
  obtain ⟨us, hus, -⟩ := Token.exists_withProducts_number ts
  rw [treeValue_of_ofChars (hts n none fun _ => rfl), hus] at h
  rw [treeValue_of_ofChars (hts m none fun _ => rfl), hus]
  obtain ⟨x, hx⟩ := exists_value_of_first h
  have hpoint : m.body.count '.' ≤ 1 := by
    have := (n.exists_value_iff.1 ⟨x, hx⟩).2
    rw [hb, List.count_append] at this
    omega
  have hx' := Numeral.value_of_zeros (hn.trans hm.symm) hb ⟨hd, hpoint⟩ hx
  rw [← Expr.ofTokens_number hx hx']
  exact h

/-! ### A zero in front of a sign -/

/-- The numeral of a single zero. -/
def zeroNumeral : Numeral :=
  ⟨false, ['0'], by decide, by decide⟩

theorem value_zeroNumeral : zeroNumeral.value = .ok 0 :=
  zeroNumeral.value_eq_ok_iff.2 ⟨by decide, (0, 0), by decide, by decide⟩

theorem isNumeralChar_additive (op : Additive) : isNumeralChar op.symbol = false := by
  cases op <;> decide

/-- Behind a zero a sign is an operator. -/
theorem ofChars_zero_cons (op : Additive) (t : Text) :
    Token.ofChars none ('0' :: op.symbol :: t) =
      (Token.ofChars (some (.additive op)) t).map fun ts =>
        .number zeroNumeral :: .additive op :: ts := by
  have hop : Numeral.read? (Token.signAllowed (some (.number zeroNumeral))) (op.symbol :: t) =
      none := Numeral.read?_eq_none (isNumeralChar_additive op) t
  have hz : Token.ofChars none (zeroNumeral.text ++ op.symbol :: t) = _ :=
    Token.ofChars_numeral zeroNumeral (fun _ => rfl) (fun c hc => by
      cases hc
      exact isNumeralChar_additive op)
  rw [Token.ofChars_additive op hop] at hz
  refine hz.trans ?_
  cases Token.ofChars (some (.additive op)) t <;> rfl

theorem treeValue_zero_cons_of_ofChars {op : Additive} {ts : List Token}
    (h : Token.ofChars (some (.additive op)) t = .ok ts) :
    treeValue ans ('0' :: op.symbol :: t) = (Expr.ofTokens ans
      (.number zeroNumeral :: .additive op :: Token.withProducts ts)).bind Expr.value := by
  have hz := ofChars_zero_cons op t
  rw [h] at hz
  rw [treeValue_of_ofChars hz, ← Token.withProducts_additive]
  rfl

/-- A zero in front of a sign keeps the value up to the sign of zero. -/
theorem treeValue_zero_cons {op : Additive}
    (hs : ∀ s : Suffix, (∀ c ∈ s.text, c ∈ t) → s = .percent)
    (h : treeValue ans (op.symbol :: t) = .ok v) :
    ∃ w, treeValue ans ('0' :: op.symbol :: t) = .ok w ∧ EqUpToZero w v := by
  cases hr : Numeral.read? (Token.signAllowed none) (op.symbol :: t) with
  | none =>
      -- the sign is a token of its own
      have hop := Token.ofChars_additive op hr
      cases hts : Token.ofChars (some (.additive op)) t with
      | error fault =>
          rw [treeValue, hop, hts] at h
          cases h
      | ok ts =>
          rw [hts] at hop
          rw [treeValue_of_ofChars hop, Token.withProducts_additive] at h
          rw [treeValue_zero_cons_of_ofChars hts]
          exact Expr.exists_value_sign value_zeroNumeral h
  | some r =>
      -- the sign belongs to the number behind it
      obtain ⟨n, tail⟩ := r
      cases op with
      | plus =>
          have hnone : Numeral.read? true ('+' :: t) = none :=
            Numeral.read?_eq_none (isNumeralChar_additive .plus) t
          cases hnone.symm.trans hr
      | minus =>
          obtain ⟨hn, rfl, ht⟩ := Numeral.readRun?_eq_some hr
          let m : Numeral := ⟨false, n.body, n.body_ne_nil, n.body_all⟩
          have htext : Additive.minus.symbol :: (n.body ++ tail) = n.text ++ tail := by
            rw [Numeral.text, hn]
            rfl
          rw [htext] at h
          obtain ⟨ts, hmem, hts⟩ := exists_tokens_behind_number ht h
          obtain ⟨us, hus, hsuffix⟩ := Token.exists_withProducts_number ts
          rw [treeValue_of_ofChars (hts n none fun _ => rfl), hus] at h
          have hm : Token.ofChars (some (.additive .minus)) (n.body ++ tail) = _ :=
            hts m _ fun hm => by cases hm
          rw [treeValue_zero_cons_of_ofChars hm, hus]
          refine Expr.exists_value_negative value_zeroNumeral hn rfl rfl (fun s hs' => ?_) h
          exact hs s fun c hc => List.mem_append_right _ (hmem s (hsuffix s hs') c hc)

/-! ### What cannot come first -/

/-- The characters of plain arithmetic that no operand begins with. -/
def neverFirst : Text :=
  ['×', '÷', ')', '%']

theorem exists_token_of_neverFirst (ans : Option Float) {c : Char} (hc : c ∈ neverFirst) :
    ∃ s, Token.ofChar? c = some s ∧
      ∀ rest, Expr.operand ans .signed (s :: rest) = .error .missingNumber := by
  have hcases : c = '×' ∨ c = '÷' ∨ c = ')' ∨ c = '%' := by
    simpa [neverFirst] using hc
  rcases hcases with rfl | rfl | rfl | rfl
  · exact ⟨.multiplicative .times, rfl, fun rest => by rw [Expr.operand]⟩
  · exact ⟨.multiplicative .divide, rfl, fun rest => by rw [Expr.operand]⟩
  · exact ⟨.closing, rfl, fun rest => by rw [Expr.operand]⟩
  · exact ⟨.suffix .percent, rfl, fun rest => by rw [Expr.operand]⟩

theorem treeValue_ne_ok {c : Char} (hc : c ∈ neverFirst) (hh : Head.read? (c :: t) = none) :
    treeValue ans (c :: t) ≠ .ok v := by
  intro h
  obtain ⟨s, hs, hop⟩ := exists_token_of_neverFirst ans hc
  have key : neverFirst.all (fun c => isBlank c = false ∧ isNumeralChar c = false ∧ c ≠ '-') =
      true := by decide
  obtain ⟨hb, hnum, hminus⟩ := of_decide_eq_true (List.all_eq_true.1 key c hc)
  have hn : Numeral.read? (Token.signAllowed none) (c :: t) = none :=
    (Numeral.read?_cons_eq_none_iff hnum t).2 fun h => absurd h hminus
  have hscan := Token.ofChars_char hb hh hn
  rw [hs] at hscan
  obtain ⟨ts, hts, h⟩ := Expr.exists_of_bind_eq_ok h
  rw [hscan] at hts
  dsimp only at hts
  cases hrest : Token.ofChars (some s) t with
  | error fault =>
      rw [hrest] at hts
      cases hts
  | ok us =>
      rw [hrest] at hts
      cases hts
      obtain ⟨ws, hws⟩ := Token.exists_withProducts_cons s us
      rw [hws] at h
      obtain ⟨first, us', more, ho, -, -⟩ := Expr.exists_chain_of_value h
      cases (hop ws).symm.trans ho

end PocketCalculator
