import PocketCalculator.Proofs.Expr.Grammar

/-! # The parser against the grammar

The parser reads one operand by a recursion on the tokens and puts the chain of operands together
afterwards.  Both steps agree with the greedy reading of the grammar: an operand is read exactly as
`Reads` reads it (`Expr.reads_of_operand`, `Reads.parsed`), and a chain is the sum that it writes
(`Reads.ofChain`).

The main statement is `Expr.ofTokens_grammar`: there is a tree exactly for the readable tokens that
the grammar derives, and it is the tree of the greedy reading, with a lone quotient turned into a
fraction. -/

namespace PocketCalculator

variable {ans : Option Float} {p : Phrase} {level : OperandLevel} {ts us rest : List Token}
  {e : Expr}

/-- The phrase that is read on a level. -/
def OperandLevel.phrase : OperandLevel → Phrase
  | .signed => .signed
  | .marked => .prefixed
  | .rooted => .rooted

/-- The token of an operator. -/
def Operator.token : Operator → Token
  | additive op => .additive op
  | multiplicative op => .multiplicative op

theorem Operator.operator?_token (op : Operator) : op.token.operator? = some op := by
  cases op <;> rfl

theorem Token.eq_token_of_operator? {t : Token} {op : Operator} (h : t.operator? = some op) :
    t = op.token := by
  cases t <;> cases h <;> rfl

namespace Expr

/-! ### What the parser reads is a reading -/

theorem withSuffixes_eq (e : Expr) (ss : List Suffix) (h : Settled rest) :
    withSuffixes e (ss.map .suffix ++ rest) =
      (ss.foldl (fun e s => apply (.suffix s) e) e, rest) := by
  induction ss generalizing e with
  | nil =>
      rw [List.map_nil, List.nil_append, withSuffixes]
      · rfl
      · exact h
  | cons s ss ih => exact ih (apply (.suffix s) e)

theorem reads_finish (h : Reads ans .rooted ts e rest) (level : OperandLevel) :
    Reads ans level.phrase ts (finish level (e, rest)).1 (finish level (e, rest)).2 := by
  have hp : Reads ans .postfixed ts (withSuffixes e rest).1 (withSuffixes e rest).2 := by
    obtain ⟨ss, hs⟩ := exists_suffixes rest
    rw [hs, withSuffixes_eq e ss (settled_afterSuffixes rest)]
    rw [hs] at h
    exact h.suffixes (settled_afterSuffixes rest)
  cases level with
  | rooted => exact h
  | marked => exact hp.postfixed
  | signed => exact hp.postfixed.prefixed

theorem reads_withSign (op : Additive) (h : Reads ans .signed ts e rest) :
    Reads ans .signed (.additive op :: ts) (withSign op e) rest := by
  cases op with
  | plus => exact h.plus
  | minus =>
      cases e with
      | literal x => exact h.minusLiteral
      | _ => exact h.minus (fun x hx => by cases hx)

theorem eq_of_closeGroup {r : Expr × List Token} (h : closeGroup e ts = .ok r) :
    ts = .closing :: r.2 ∧ e = r.1 := by
  unfold closeGroup at h
  split at h <;> cases h
  exact ⟨rfl, rfl⟩

theorem reads_closing {r : Expr × List Token} (hc : closeGroup e us = .ok r)
    (h : Reads ans p ts e us) : Reads ans p ts r.1 (.closing :: r.2) := by
  obtain ⟨rfl, rfl⟩ := eq_of_closeGroup hc
  exact h

theorem reads_of_prefixed (hl : level = .rooted → False) (h : Reads ans .prefixed ts e rest) :
    Reads ans level.phrase ts e rest := by
  cases level with
  | rooted => exact (hl rfl).elim
  | marked => exact h
  | signed => exact h.prefixed

theorem reads_root_marker {m : Marker} (h : Reads ans .prefixed (.marker m :: ts) e rest) :
    Reads ans .rooted (.root :: .marker m :: ts) (apply .root e) rest := by
  cases h with
  | marker h => exact h.rootMarker
  | markerMinus h => exact h.rootMarkerMinus
  | postfixed h =>
      cases h with
      | suffixes h _ =>
          cases h with
          | unit h => cases h

theorem reads_of_operand {r : Expr × List Token} (h : operand ans level ts = .ok r) :
    Reads ans level.phrase ts r.1 r.2 := by
  fun_induction operand ans level ts generalizing r
  -- a sign
  case case2 ih =>
    obtain ⟨a, ha, rfl⟩ := exists_of_bind_pure_eq_ok h
    exact reads_withSign _ (ih ha)
  -- a marker, with a minus behind it or without one
  case case5 hl ih =>
    obtain ⟨a, ha, rfl⟩ := exists_of_bind_pure_eq_ok h
    exact reads_of_prefixed hl (ih ha).markerMinus
  case case6 hl ih =>
    obtain ⟨a, ha, rfl⟩ := exists_of_bind_pure_eq_ok h
    exact reads_of_prefixed hl (ih ha).marker
  -- a root, in front of a marker, a minus or another operand
  case case7 ih =>
    obtain ⟨a, ha, rfl⟩ := exists_of_bind_pure_eq_ok h
    exact reads_finish (reads_root_marker (ih ha)) _
  case case8 ih =>
    obtain ⟨a, ha, rfl⟩ := exists_of_bind_pure_eq_ok h
    exact reads_finish (ih ha).rootMinus _
  case case9 ih =>
    obtain ⟨a, ha, rfl⟩ := exists_of_bind_pure_eq_ok h
    exact reads_finish (ih ha).root _
  -- a number, the last result, a blank
  case case10 =>
    obtain ⟨x, hx, rfl⟩ := exists_of_bind_pure_eq_ok h
    exact reads_finish (Reads.number hx).unit _
  case case11 =>
    obtain ⟨x, hx, rfl⟩ := exists_of_bind_pure_eq_ok h
    cases ans with
    | none => cases hx
    | some x =>
        cases hx
        exact reads_finish (Reads.ans rfl).unit _
  case case12 =>
    cases h
    exact reads_finish Reads.blank.unit _
  -- a group, with a function in front of it or without one
  case case14 ih =>
    obtain ⟨a, ha, h⟩ := exists_of_bind_eq_ok h
    obtain ⟨b, hb, rfl⟩ := exists_of_bind_pure_eq_ok h
    exact reads_finish (Reads.call (reads_closing hb (ih ha))).unit _
  case case17 ih =>
    obtain ⟨a, ha, h⟩ := exists_of_bind_eq_ok h
    obtain ⟨b, hb, rfl⟩ := exists_of_bind_pure_eq_ok h
    exact reads_finish (Reads.group (reads_closing hb (ih ha))).unit _
  all_goals cases h

/-! ### Chains -/

/-- `ChainTo ans ts more rest` says that the operators and operands `more` stand at the beginning of
`ts`, and `rest` is left over. -/
inductive ChainTo (ans : Option Float) :
    List Token → List (Operator × Expr) → List Token → Prop where
  | nil (ts : List Token) : ChainTo ans ts [] ts
  | cons {t : Token} {op : Operator} {ts us rest : List Token} {e : Expr}
      {more : List (Operator × Expr)} (hop : t.operator? = some op)
      (h : operand ans .signed ts = .ok (e, us)) (hc : ChainTo ans us more rest) :
      ChainTo ans (t :: ts) ((op, e) :: more) rest

theorem ChainTo.append {more more' : List (Operator × Expr)} (h : ChainTo ans ts more us)
    (h' : ChainTo ans us more' rest) : ChainTo ans ts (more ++ more') rest := by
  induction h with
  | nil => exact h'
  | cons hop ho _ ih => exact .cons hop ho (ih h')

theorem chainTo_of_chainAfter {more : List (Operator × Expr)}
    (h : chainAfter ans ts = .ok (more, rest)) : ChainTo ans ts more rest := by
  fun_induction chainAfter ans ts generalizing more rest with
  | case1 =>
      cases h
      exact .nil []
  | case2 t ts hop =>
      cases h
      exact .nil (t :: ts)
  | case3 t ts op hop fault ho => cases h
  | case4 t ts op hop e us ho ih =>
      obtain ⟨⟨more, left⟩, hm, hr⟩ := exists_of_bind_eq_ok h
      cases hr
      exact .cons hop ho (ih hm)

theorem chainAfter_cons {t : Token} {op : Operator} (hop : t.operator? = some op)
    (h : operand ans .signed ts = .ok (e, us)) :
    chainAfter ans (t :: ts) =
      (chainAfter ans us).map fun r => ((op, e) :: r.1, r.2) := by
  rw [chainAfter]
  simp only [hop]
  split
  · rename_i fault hf
    rw [h] at hf
    cases hf
  · rename_i e' us' ho
    rw [h] at ho
    cases ho
    cases chainAfter ans us <;> rfl

theorem chainAfter_of_chainTo {more : List (Operator × Expr)} (h : ChainTo ans ts more []) :
    chainAfter ans ts = .ok (more, []) := by
  generalize hr : ([] : List Token) = rest at h
  induction h with
  | nil => rw [← hr, chainAfter]
  | cons hop ho _ ih =>
      rw [chainAfter_cons hop ho, ih hr]
      rfl

/-- A term whose operators all belong to terms. -/
def IsProduct (more : List (Operator × Expr)) : Prop :=
  ∀ q ∈ more, ∃ op, q.1 = .multiplicative op

theorem ofChain_append_of_isProduct {more : List (Operator × Expr)} (h : IsProduct more)
    (sum : Option (Expr × Additive)) (term : Expr) (more' : List (Operator × Expr)) :
    ofChain sum term (more ++ more') = ofChain sum (ofChain none term more) more' := by
  induction more generalizing term with
  | nil => rfl
  | cons q more ih =>
      obtain ⟨op, e⟩ := q
      obtain ⟨op, rfl⟩ := h _ List.mem_cons_self
      exact ih (fun q hq => h q (List.mem_cons_of_mem _ hq)) _

theorem ofChain_append_additive (sum : Option (Expr × Additive)) (term : Expr)
    (more : List (Operator × Expr)) (op : Additive) (e : Expr) (more' : List (Operator × Expr)) :
    ofChain sum term (more ++ (.additive op, e) :: more') =
      ofChain (some (ofChain sum term more, op)) e more' := by
  induction more generalizing sum term with
  | nil => rfl
  | cons q more ih =>
      obtain ⟨op', e'⟩ := q
      cases op' with
      | additive op' => exact ih _ _
      | multiplicative op' => exact ih _ _

theorem ofChain_of_isProduct {more : List (Operator × Expr)} (h : IsProduct more)
    (sum : Option (Expr × Additive)) (term : Expr) :
    ofChain sum term more = joinTerm sum (ofChain none term more) := by
  have := ofChain_append_of_isProduct h sum term []
  rwa [List.append_nil] at this

/-! ### What can be read the parser reads -/

/-- What the parser does with a phrase.  A unit and a root are read on every level, and the suffixes
behind them are taken on the levels that have them; a term and a sum are read as a chain. -/
def Parsed (ans : Option Float) (ts : List Token) (e : Expr) (rest : List Token) : Phrase → Prop
  | .rooted | .unit => ∀ level, operand ans level ts = .ok (finish level (e, rest))
  | .postfixed | .prefixed => ∀ level ≠ .rooted, operand ans level ts = .ok (e, rest)
  | .signed => operand ans .signed ts = .ok (e, rest)
  | .term => ∃ first us more, operand ans .signed ts = .ok (first, us) ∧
      ChainTo ans us more rest ∧ IsProduct more ∧ e = ofChain none first more
  | .sum => ∃ first us more, operand ans .signed ts = .ok (first, us) ∧
      ChainTo ans us more rest ∧ e = ofChain none first more

theorem operand_rooted_marker (m : Marker) (ts : List Token) :
    operand ans .rooted (.marker m :: ts) = .error (.unexpectedToken m.text) := by
  rw [operand]

theorem operand_marker {m : Marker} (h : operand ans .marked ts = .ok (e, rest))
    (hl : level ≠ .rooted) :
    operand ans level (.marker m :: ts) = .ok (apply (.marker m) e, rest) := by
  rw [operand, h]
  · rfl
  · exact hl
  · rintro us rfl
    rw [operand_minus (by decide)] at h
    cases h

theorem operand_markerMinus {m : Marker} (h : operand ans .marked ts = .ok (e, rest))
    (hl : level ≠ .rooted) :
    operand ans level (.marker m :: .additive .minus :: ts) =
      .ok (apply (.marker m) (neg e), rest) := by
  rw [operand, h]
  · rfl
  · exact hl

theorem operand_root_marker {m : Marker}
    (h : operand ans .marked (.marker m :: ts) = .ok (e, rest)) (level : OperandLevel) :
    operand ans level (.root :: .marker m :: ts) = .ok (finish level (apply .root e, rest)) := by
  rw [operand, h]
  rfl

theorem withSign_minus (h : ∀ x, e ≠ literal x) : withSign .minus e = neg e := by
  cases e with
  | literal x => exact absurd rfl (h x)
  | _ => rfl

end Expr

open PocketCalculator.Expr

theorem Reads.parsed (h : Reads ans p ts e rest) : Parsed ans ts e rest p := by
  induction h with
  | term _ ih =>
      obtain ⟨first, us, more, h₁, h₂, -, h₃⟩ := ih
      exact ⟨first, us, more, h₁, h₂, h₃⟩
  | @sum _ _ _ _ _ op _ _ ihl ihr =>
      obtain ⟨first, us, more, h₁, h₂, rfl⟩ := ihl
      obtain ⟨first', us', more', h₁', h₂', hp, rfl⟩ := ihr
      refine ⟨first, us, more ++ (.additive op, first') :: more', h₁, ?_, ?_⟩
      · exact h₂.append (.cons rfl h₁' h₂')
      · rw [ofChain_append_additive, ofChain_of_isProduct hp (some _)]
        rfl
  | @signed _ e rest _ ih =>
      exact ⟨e, rest, [], ih, .nil rest, fun q hq => absurd hq List.not_mem_nil, rfl⟩
  | @product _ _ _ r rest op _ _ ihl ihr =>
      obtain ⟨first, us, more, h₁, h₂, hp, rfl⟩ := ihl
      refine ⟨first, us, more ++ [(.multiplicative op, r)], h₁, ?_, ?_, ?_⟩
      · exact h₂.append (.cons rfl ihr (.nil rest))
      · intro q hq
        obtain hq | hq := List.mem_append.1 hq
        · exact hp q hq
        · exact ⟨op, by rw [List.mem_singleton.1 hq]⟩
      · rw [ofChain_append_of_isProduct hp]
        rfl
  | plus _ ih =>
      rw [Parsed, operand, ih]
      rfl
  | minusLiteral _ ih =>
      rw [Parsed, operand, ih]
      rfl
  | minus _ hl ih =>
      rw [Parsed, operand, ih, ← withSign_minus hl]
      rfl
  | prefixed _ ih => exact ih .signed (by decide)
  | marker _ ih => exact fun level hl => operand_marker (ih .marked (by decide)) hl
  | markerMinus _ ih => exact fun level hl => operand_markerMinus (ih .marked (by decide)) hl
  | @suffixes _ e rest ss _ hs ih =>
      intro level hl
      rw [ih level, ← withSuffixes_eq e ss hs]
      cases level with
      | rooted => exact absurd rfl hl
      | _ => rfl
  | postfixed _ ih => exact ih
  | rootMarker _ ih =>
      exact operand_root_marker (operand_marker (ih .marked (by decide)) (by decide))
  | rootMarkerMinus _ ih =>
      exact operand_root_marker (operand_markerMinus (ih .marked (by decide)) (by decide))
  | rootMinus _ ih =>
      intro level
      rw [operand, ih .rooted]
      rfl
  | @root ts e rest _ ih =>
      intro level
      rw [operand, ih .rooted]
      · rfl
      · rintro m us rfl
        have := ih .rooted
        rw [operand_rooted_marker] at this
        cases this
      · rintro us rfl
        have := ih .rooted
        rw [operand_minus (by decide)] at this
        cases this
  | unit _ ih => exact ih
  | number hx =>
      intro level
      rw [operand, hx]
      rfl
  | ans hx =>
      intro level
      rw [operand, hx]
      rfl
  | blank => exact fun level => by rw [operand]
  | @call f ts e rest _ ih =>
      intro level
      rw [operand, ih]
      · rfl
      · rintro us rfl
        rw [Parsed, operand_closing] at ih
        cases ih
  | @group ts e rest _ ih =>
      intro level
      rw [operand, ih]
      · rfl
      · rintro us rfl
        rw [Parsed, operand_closing] at ih
        cases ih

/-! ### Sums -/

/-- What has been read of a chain: the sum so far with the operator behind it, and the current
term. -/
def ReadsSoFar (ans : Option Float) (ts : List Token) (sum : Option (Expr × Additive))
    (term : Expr) (us : List Token) : Prop :=
  match sum with
  | none => Reads ans .term ts term us
  | some (s, op) => ∃ vs, Reads ans .sum ts s (.additive op :: vs) ∧ Reads ans .term vs term us

theorem ReadsSoFar.joinTerm {sum : Option (Expr × Additive)} {term : Expr}
    (h : ReadsSoFar ans ts sum term us) : Reads ans .sum ts (joinTerm sum term) us := by
  cases sum with
  | none => exact h.term
  | some s =>
      obtain ⟨vs, hs, ht⟩ := h
      exact hs.sum ht

theorem Reads.ofChain {sum : Option (Expr × Additive)} {term : Expr}
    {more : List (Operator × Expr)} (h : ReadsSoFar ans ts sum term us)
    (hc : ChainTo ans us more rest) : Reads ans .sum ts (ofChain sum term more) rest := by
  induction hc generalizing sum term with
  | nil => exact h.joinTerm
  | @cons t op vs ws rest e more hop ho _ ih =>
      have he : Reads ans .signed vs e ws := reads_of_operand ho
      rw [Token.eq_token_of_operator? hop] at h
      cases op with
      | additive op => exact ih ⟨vs, h.joinTerm, he.signed⟩
      | multiplicative op =>
          refine ih ?_
          cases sum with
          | none => exact Reads.product h he
          | some s =>
              obtain ⟨xs, hs, hx⟩ := h
              exact ⟨xs, hs, hx.product he⟩

namespace Expr

/-- The parser goes through exactly when the tokens are the sum of a greedy reading. -/
theorem exists_chain_iff {s : Expr} :
    (∃ first us more, operand ans .signed ts = .ok (first, us) ∧
      chainAfter ans us = .ok (more, []) ∧ s = ofChain none first more) ↔
      Reads ans .sum ts s [] := by
  constructor
  · rintro ⟨first, us, more, h₁, h₂, rfl⟩
    exact Reads.ofChain (reads_of_operand h₁).signed (chainTo_of_chainAfter h₂)
  · intro h
    obtain ⟨first, us, more, h₁, h₂, h₃⟩ := h.parsed
    exact ⟨first, us, more, h₁, chainAfter_of_chainTo h₂, h₃⟩

/-- The tree of a whole expression, given the tree of its sum: a quotient whose left side is not
joined by an operator itself becomes a fraction, and everything else stays. -/
def WholeOf (s e : Expr) : Prop :=
  (∃ op l r, s = binary (.multiplicative op) l r ∧ op.divides = true ∧ l.isBinary = false ∧
    e = fraction l r) ∨
  ((∀ op l r, s = binary (.multiplicative op) l r → op.divides = true → l.isBinary = true) ∧ e = s)

theorem wholeOf_iff {s : Expr} : WholeOf s e ↔ e = s.toFraction := by
  have other (h : ∀ op l r, s ≠ binary (.multiplicative op) l r) :
      WholeOf s e ↔ e = s := by
    constructor
    · rintro (⟨op, l, r, hs, -⟩ | ⟨-, he⟩)
      · exact absurd hs (h op l r)
      · exact he
    · exact fun he => .inr ⟨fun op l r hs => absurd hs (h op l r), he⟩
  cases s with
  | binary op l r =>
      cases op with
      | additive op => exact other (fun op l r h => by cases h)
      | multiplicative op =>
          rw [toFraction]
          constructor
          · rintro (⟨op', l', r', hs, hd, hl, rfl⟩ | ⟨h, rfl⟩)
            · cases hs
              rw [hd, hl]
              rfl
            · by_cases hd : op.divides = true
              · rw [h op l r rfl hd, Bool.not_true, Bool.and_false]
                rfl
              · rw [Bool.not_eq_true] at hd
                rw [hd]
                rfl
          · intro h
            split at h
            · rename_i hc
              rw [Bool.and_eq_true, Bool.not_eq_true'] at hc
              exact .inl ⟨op, l, r, rfl, hc.1, hc.2, h⟩
            · rename_i hc
              refine .inr ⟨fun op' l' r' hs hd => ?_, h⟩
              cases hs
              rw [hd, Bool.true_and, Bool.not_eq_true, Bool.not_eq_false'] at hc
              exact hc
  | _ => exact other (fun op l r h => by cases h)

theorem ofTokens_eq_ok_iff_chain :
    ofTokens ans ts = .ok e ↔ ∃ first us more, operand ans .signed ts = .ok (first, us) ∧
      chainAfter ans us = .ok (more, []) ∧ e = (ofChain none first more).toFraction := by
  constructor
  · intro h
    obtain ⟨⟨first, us⟩, ho, h⟩ := exists_of_bind_eq_ok h
    obtain ⟨⟨more, left⟩, hc, h⟩ := exists_of_bind_eq_ok h
    by_cases hl : left = []
    · subst hl
      cases h
      exact ⟨first, us, more, ho, hc, rfl⟩
    · simp only [ne_eq, hl, not_false_eq_true, if_true] at h
      cases h
  · rintro ⟨first, us, more, ho, hc, rfl⟩
    rw [ofTokens, ho]
    simp only [bind, Except.bind, hc]
    rfl

theorem ofTokens_eq_ok_iff_reads :
    ofTokens ans ts = .ok e ↔ ∃ s, Reads ans .sum ts s [] ∧ e = s.toFraction := by
  rw [ofTokens_eq_ok_iff_chain]
  simp only [← exists_chain_iff]
  constructor
  · rintro ⟨first, us, more, ho, hc, he⟩
    exact ⟨_, ⟨first, us, more, ho, hc, rfl⟩, he⟩
  · rintro ⟨s, ⟨first, us, more, ho, hc, rfl⟩, he⟩
    exact ⟨first, us, more, ho, hc, he⟩

theorem exists_reads_sum_iff :
    (∃ s, Reads ans .sum ts s []) ↔ Derives .sum ts ∧ Readable ans ts := by
  constructor
  · rintro ⟨s, h⟩
    obtain ⟨taken, rfl, hd, hr⟩ := h.derives
    rw [List.append_nil]
    exact ⟨hd, hr⟩
  · rintro ⟨hd, hr⟩
    obtain ⟨s, left, h, hl⟩ := hd.exists_reads hr []
    rw [List.append_nil] at h
    cases hl
    exact ⟨s, h⟩

/-- Tokens have a tree exactly when the grammar derives them and they are readable.  The tree is
that of the greedy reading, which joins operands by operators on two levels, with a lone quotient
turned into a fraction. -/
theorem ofTokens_grammar (ans : Option Float) (ts : List Token) :
    ((∃ e, ofTokens ans ts = .ok e) ↔ Derives .sum ts ∧ Readable ans ts) ∧
      ∀ e, ofTokens ans ts = .ok e ↔
        ∃ s, Reads ans .sum ts s [] ∧ s.IsSum ∧ WholeOf s e := by
  constructor
  · rw [← exists_reads_sum_iff]
    simp only [ofTokens_eq_ok_iff_reads]
    exact ⟨fun ⟨_, s, h, _⟩ => ⟨s, h⟩, fun ⟨s, h⟩ => ⟨_, s, h, rfl⟩⟩
  · intro e
    simp only [ofTokens_eq_ok_iff_reads, wholeOf_iff]
    exact ⟨fun ⟨s, h, he⟩ => ⟨s, h, h.shape, he⟩, fun ⟨s, h, _, he⟩ => ⟨s, h, he⟩⟩

end Expr
end PocketCalculator
