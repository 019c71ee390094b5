import PocketCalculator.Proofs.Expr.OpenGroup
import PocketCalculator.Proofs.Number.PlainText

/-! # The last result written out

The name of the last result stands in an expression as a number does.  When a number of the same
value takes its place everywhere, each step of the parser does the same and leaves the same tokens
over, with the number in them (`Expr.operand_map`, `Expr.chainAfter_map`).  So the tree is the same,
or the fault is; only the tokens behind a whole expression are spelled with the number
(`Expr.ofTokens_map`).

The plain text of a double is such a number, also where it has a sign that the scanner would not
have read there: `Expr.ofTokens_ansWritten`. -/

namespace PocketCalculator

/-! ### Tokens -/

theorem Numeral.ofText?_text (n : Numeral) : ofText? n.text = some n := by
  have hrun : ofRun? n.negative n.body = some n := by
    rw [ofRun?, dif_pos ⟨n.body_ne_nil, n.body_all⟩]
  cases hn : n.negative with
  | true =>
      rw [hn] at hrun
      rw [text, if_pos hn]
      exact hrun
  | false =>
      rw [hn] at hrun
      rw [text, hn, if_neg Bool.false_ne_true, ofText?]
      · exact hrun
      · rintro run hminus
        have hc := n.isNumeralChar_of_mem '-' (hminus ▸ List.mem_cons_self)
        exact absurd hc (by decide)

namespace Token

/-- The tokens, with the plain text of a number in the place of the last result. -/
def withAnsWritten (x : Float) (ts : List Token) : List Token :=
  ts.map fun s => if s = ans then ofText (plainText x) else s

/-- A token, or a number in the place of the last result. -/
def numbered (n : Numeral) : Token → Token
  | ans => number n
  | s => s

variable {n : Numeral} {s t : Token}

theorem ofText_numeral (n : Numeral) : ofText n.text = number n := by
  rw [ofText, n.ofText?_text]

theorem withAnsWritten_eq {x : Float} (h : n.text = plainText x) (ts : List Token) :
    withAnsWritten x ts = ts.map (numbered n) := by
  refine List.map_congr_left fun s _ => ?_
  rw [← h, ofText_numeral]
  cases s <;> rfl

theorem numbered_eq_iff (ht : t.isValue = false) : numbered n s = t ↔ s = t := by
  cases s with
  | ans =>
      cases t with
      | number | ans => cases ht
      | _ => simp [numbered]
  | _ => rfl

theorem operator?_numbered (n : Numeral) (s : Token) : (numbered n s).operator? = s.operator? := by
  cases s <;> rfl

end Token

/-! ### Operands -/

namespace Expr

open Token (numbered)

variable {n : Numeral} {x : Float}

/-- What has been read, with a number in the place of the last result in the tokens left over. -/
def renumbered (n : Numeral) (r : Expr × List Token) : Expr × List Token :=
  (r.1, r.2.map (numbered n))

theorem withSuffixes_map (n : Numeral) (e : Expr) (ts : List Token) :
    withSuffixes e (ts.map (numbered n)) = renumbered n (withSuffixes e ts) := by
  fun_induction withSuffixes e ts with
  | case1 e s rest ih => exact ih
  | case2 e rest h =>
      cases rest with
      | nil => rfl
      | cons s rest =>
          cases s with
          | suffix s => exact absurd rfl (h s rest)
          | _ => rfl

theorem finish_renumbered (n : Numeral) (level : OperandLevel) (r : Expr × List Token) :
    finish level (renumbered n r) = renumbered n (finish level r) := by
  cases level with
  | rooted => rfl
  | signed => exact withSuffixes_map n r.1 r.2
  | marked => exact withSuffixes_map n r.1 r.2

theorem closeGroup_map (n : Numeral) (e : Expr) (ts : List Token) :
    closeGroup e (ts.map (numbered n)) = (closeGroup e ts).map (renumbered n) := by
  cases ts with
  | nil => rfl
  | cons t ts => cases t <;> rfl

theorem map_bind_pure {α β : Type} {f : α → β} {m : α → α} {k : β → β}
    (h : ∀ a, f (m a) = k (f a)) (r : Except Fault α) :
    (r.map m >>= fun a => pure (f a)) = (r >>= fun a => pure (f a)).map k := by
  cases r with
  | error fault => rfl
  | ok a => exact congrArg Except.ok (h a)

/-- What a group holds, and the parenthesis that closes it. -/
theorem group_renumbered {f : Expr × List Token → Expr × List Token}
    (h : ∀ r, f (renumbered n r) = renumbered n (f r)) (r : Except Fault (Expr × List Token)) :
    (r.map (renumbered n) >>= fun r => closeGroup r.1 r.2 >>= fun r => pure (f r)) =
      (r >>= fun r => closeGroup r.1 r.2 >>= fun r => pure (f r)).map (renumbered n) := by
  cases r with
  | error fault => rfl
  | ok r =>
      change (closeGroup r.1 (r.2.map (numbered n)) >>= fun r => pure (f r)) =
        (closeGroup r.1 r.2 >>= fun r => pure (f r)).map (renumbered n)
      rw [closeGroup_map]
      exact map_bind_pure h _

theorem map_numbered_ne_cons {s : Token} {ts : List Token} (hs : s.isValue = false)
    (h : ∀ us, ts = s :: us → False) (us : List Token) : ts.map (numbered n) = s :: us → False := by
  intro hus
  obtain ⟨t, vs, rfl, ht, -⟩ := List.map_eq_cons_iff.1 hus
  exact h vs (congrArg (· :: vs) ((Token.numbered_eq_iff hs).1 ht))

/-- An operand is read in the same way, whether the last result is named or written out. -/
theorem operand_map (hn : n.value = .ok x) (level : OperandLevel) (ts : List Token) :
    operand none level (ts.map (numbered n)) =
      (operand (some x) level ts).map (renumbered n) := by
  fun_induction operand (some x) level ts
  -- a sign
  case case2 rest op ih =>
    change operand none .signed (.additive op :: rest.map (numbered n)) = _
    rw [operand, ih]
    exact map_bind_pure (fun _ => by rfl) _
  case case3 level rest op hlevel =>
    change operand none level (.additive op :: rest.map (numbered n)) = _
    rw [operand]
    · rfl
    · exact hlevel
  -- a marker, with a minus behind it or without one
  case case5 level m rest hlevel ih =>
    change operand none level (.marker m :: .additive .minus :: rest.map (numbered n)) = _
    rw [operand, ih]
    · exact map_bind_pure (fun _ => by rfl) _
    · exact hlevel
  case case6 level m rest hminus hlevel ih =>
    change operand none level (.marker m :: rest.map (numbered n)) = _
    rw [operand, ih]
    · exact map_bind_pure (fun _ => by rfl) _
    · exact hlevel
    · exact map_numbered_ne_cons rfl hminus
  -- a root, in front of a marker, a minus or another operand
  case case7 level m rest ih =>
    change operand none level (.root :: .marker m :: rest.map (numbered n)) = _
    change operand none .marked (.marker m :: rest.map (numbered n)) = _ at ih
    generalize operand (some x) .marked (.marker m :: rest) = r at ih ⊢
    rw [operand, ih]
    exact map_bind_pure (fun r => finish_renumbered n level (applied .root r)) _
  case case8 level rest ih =>
    change operand none level (.root :: .additive .minus :: rest.map (numbered n)) = _
    rw [operand, ih]
    exact map_bind_pure (fun r => finish_renumbered n level (appliedToNeg .root r)) _
  case case9 level rest hmarker hminus ih =>
    change operand none level (.root :: rest.map (numbered n)) = _
    rw [operand, ih]
    · exact map_bind_pure (fun r => finish_renumbered n level (applied .root r)) _
    · exact fun m => map_numbered_ne_cons rfl (hmarker m)
    · exact map_numbered_ne_cons rfl hminus
  -- a number, the last result, a blank
  case case10 level rest m =>
    change operand none level (.number m :: rest.map (numbered n)) = _
    rw [operand]
    cases m.value with
    | error fault => rfl
    | ok y => exact congrArg Except.ok (finish_renumbered n level (literal y, rest))
  case case11 level rest =>
    change operand none level (.number n :: rest.map (numbered n)) = _
    rw [operand, hn]
    exact congrArg Except.ok (finish_renumbered n level (literal x, rest))
  case case12 level rest =>
    change operand none level (.blank :: rest.map (numbered n)) = _
    rw [operand]
    exact congrArg Except.ok (finish_renumbered n level (blank, rest))
  -- a group, with a function in front of it or without one
  case case14 level f rest hclosing ih =>
    change operand none level (.circular f :: .opening :: rest.map (numbered n)) = _
    rw [operand, ih]
    · exact group_renumbered (fun r => finish_renumbered n level (applied (.circular f) r)) _
    · exact map_numbered_ne_cons rfl hclosing
  case case15 level rest f hempty hopening =>
    change operand none level (.circular f :: rest.map (numbered n)) = _
    rw [operand]
    · rfl
    · exact fun us => map_numbered_ne_cons rfl hopening (.closing :: us)
    · exact map_numbered_ne_cons rfl hopening
  case case17 level rest hclosing ih =>
    change operand none level (.opening :: rest.map (numbered n)) = _
    rw [operand, ih]
    · exact group_renumbered (fun r => finish_renumbered n level r) _
    · exact map_numbered_ne_cons rfl hclosing
  -- the tokens with which no operand begins
  all_goals rfl

/-! ### Whole expressions -/

theorem chainAfter_map (hn : n.value = .ok x) (ts : List Token) :
    chainAfter none (ts.map (numbered n)) =
      (chainAfter (some x) ts).map fun r => (r.1, r.2.map (numbered n)) := by
  fun_induction chainAfter (some x) ts with
  | case1 =>
      rw [List.map_nil, chainAfter]
      rfl
  | case2 t rest hop =>
      rw [← Token.operator?_numbered n t] at hop
      rw [List.map_cons, chainAfter]
      simp only [hop]
      rfl
  | case3 t rest op hop fault ho =>
      rw [← Token.operator?_numbered n t] at hop
      refine chainAfter_stopped hop ?_
      rw [operand_map hn, ho]
      rfl
  | case4 t rest op hop e us ho ih =>
      rw [← Token.operator?_numbered n t] at hop
      have ho' : operand none .signed (rest.map (numbered n)) = .ok (e, us.map (numbered n)) := by
        rw [operand_map hn, ho]
        rfl
      rw [List.map_cons, chainAfter_cons hop ho', ih]
      cases chainAfter (some x) us <;> rfl

/-- The tree is the same, or the fault is, but for the tokens that a fault spells because they stand
behind a whole expression. -/
theorem ofTokens_map (hn : n.value = .ok x) (ts : List Token) :
    ofTokens none (ts.map (numbered n)) = ofTokens (some x) ts ∨
      ∃ left, ofTokens (some x) ts = .error (.leftover (Token.join left)) ∧
        ofTokens none (ts.map (numbered n)) =
          .error (.leftover (Token.join (left.map (numbered n)))) := by
  rw [ofTokens, ofTokens, operand_map hn]
  rcases operand (some x) .signed ts with fault | ⟨first, rest⟩
  · exact .inl rfl
  · simp only [Except.map, renumbered, bind, Except.bind, chainAfter_map hn]
    rcases chainAfter (some x) rest with fault | ⟨more, left⟩
    · exact .inl rfl
    · cases left with
      | nil => exact .inl rfl
      | cons s left => exact .inr ⟨s :: left, rfl, rfl⟩

/-- The last result behaves as the number that its plain text writes: tokens that name it have the
same tree as those in which the number stands instead, or a fault of the same kind and code.  It is
a finite double other than the negative zero, whose text has no sign. -/
theorem ofTokens_ansWritten (hx : x.isFinite = true) (h0 : x ≠ -0.0) (ts : List Token) :
    (∀ e, ofTokens (some x) ts = .ok e ↔ ofTokens none (Token.withAnsWritten x ts) = .ok e) ∧
      ∀ fault, ofTokens (some x) ts = .error fault →
        ∃ fault', ofTokens none (Token.withAnsWritten x ts) = .error fault' ∧
          fault'.kind = fault.kind ∧ fault'.code = fault.code := by
  obtain ⟨n, htext, -, -, hn⟩ := exists_numeral_plainText hx h0
  rw [Token.withAnsWritten_eq htext]
  rcases ofTokens_map hn ts with heq | ⟨left, hnamed, hwritten⟩
  · rw [heq]
    exact ⟨fun e => Iff.rfl, fun fault h => ⟨fault, h, rfl, rfl⟩⟩
  · rw [hnamed, hwritten]
    refine ⟨fun e => ⟨nofun, nofun⟩, fun fault h => ⟨_, rfl, ?_⟩⟩
    cases h
    exact ⟨rfl, rfl⟩

/-- A minus in front of a negative number changes its sign, and a negative number may stand behind a
root. -/
theorem ofTokens_ansWritten_negative :
    let ts : List Token := [.additive .minus, .ans, .multiplicative .times, .root, .ans]
    ((-2.5 : Float).isFinite = true ∧ (-2.5 : Float) ≠ -0.0) ∧
      Token.join (Token.withAnsWritten (-2.5) ts) = "--2.5×√-2.5".toList ∧
      ofTokens none (Token.withAnsWritten (-2.5) ts) =
        .ok (.binary (.multiplicative .times) (.literal 2.5) (.apply .root (.literal (-2.5)))) := by
  intro ts
  have hx : (-2.5 : Float).isFinite = true ∧ (-2.5 : Float) ≠ -0.0 := by decide
  refine ⟨hx, by decide, ?_⟩
  refine ((ofTokens_ansWritten hx.1 hx.2 ts).1 _).1 (eq_ok_of_toOption ?_)
  decide +kernel

end Expr
end PocketCalculator
