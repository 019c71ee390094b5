import PocketCalculator.Proofs.Evaluation.Refusal
import PocketCalculator.Proofs.Expr.OpenGroup

/-! # What the faults about parentheses say

In the tokens of an expression a product is written out wherever an operand begins behind another
one, and an operand takes all suffixes behind it.  So what comes next behind an operand is an
operator or a closing parenthesis (`TokensOf.next`).  This makes the faults of the parser mean what
they say (`ofTokens_parentheses`): tokens are left over only from a closing parenthesis on that
nothing opens, a closing parenthesis is missing only at the end of the tokens, and whatever else
goes on behind the operand of a group is a second operand. -/

namespace PocketCalculator

variable {ans : Option Float} {t : Text} {ts front rest : List Token} {s : Token}

/-! ### What comes next behind an operand -/

/-- Tokens as an expression without blanks and slots gives them. -/
structure TokensOf (ts : List Token) : Prop where
  written : ∀ s ∈ ts, s.Written ∧ s ≠ .blank
  isChain : ts.IsChain fun left right =>
    ¬(left.endsOperand = true ∧ right.startsOperand = true)

theorem tokensOf_ofExpression (h : Token.ofExpression t = .ok ts)
    (hblank : ∀ c ∈ t, isBlank c = false) (hslot : blankSymbol ∉ t) : TokensOf ts := by
  rw [Token.ofExpression] at h
  cases hscan : Token.scan t with
  | error failure =>
      rw [hscan] at h
      cases h
  | ok us =>
      rw [hscan] at h
      cases h
      have hus := Token.scan_eq_ok_iff.1 hscan
      constructor
      · intro s hs
        refine ⟨?_, fun he => ?_⟩
        · rcases Token.mem_withProducts hs with hs | rfl
          · exact hus.written s hs
          · exact .inr (by decide)
        · exact blank_not_mem_withProducts (Token.scanned_iff.1 hus) hslot (he ▸ hs)
      · rw [Token.withProducts_eq_multiplied (Token.isChain_of_scan hscan hblank)]
        exact Token.isChain_multiplied us

/-- What stands behind the last token of an operand, and is none of its suffixes, closes a group or
is an operator. -/
theorem TokensOf.next (h : TokensOf (front ++ s :: rest))
    (hfront : ∃ r, front.getLast? = some r ∧ r.IsLast) (hs : Settled (s :: rest)) :
    s = .closing ∨ s.isOperator = true := by
  obtain ⟨r, hr, hlast⟩ := hfront
  obtain ⟨front, rfl⟩ := List.getLast?_eq_some_iff.1 hr
  have hends : r.endsOperand = true :=
    hlast.resolve_right (h.written r (by simp)).2
  have hstarts : s.startsOperand = false := by
    rw [List.append_assoc, List.singleton_append] at h
    have hpair := List.isChain_iff_forall_rel_of_append_cons_cons.1 h.isChain rfl
    exact Bool.eq_false_iff.2 fun hstarts => hpair ⟨hends, hstarts⟩
  obtain ⟨hwritten, hnotblank⟩ := h.written s (by simp)
  cases s with
  | closing => exact .inl rfl
  | additive | multiplicative => exact .inr rfl
  | number | ans | root | marker | circular | opening => cases hstarts
  | blank => exact absurd rfl hnotblank
  | suffix x => exact absurd rfl (hs x rest)
  | other u => exact absurd hwritten (Token.not_written_other u)

/-! ### Faults about parentheses -/

/-- At the end of the tokens a closing parenthesis is missing, and an operator is there for a second
operand. -/
theorem unclosed_nil : Unclosed [] .missingClosing :=
  ⟨fun _ _ h => (nomatch h), fun _ => rfl⟩

theorem unclosed_operator (hs : s.isOperator = true) (rest : List Token) :
    Unclosed (s :: rest) .severalOperands := by
  cases s with
  | additive | multiplicative => exact ⟨fun _ _ h => (nomatch h), fun _ => rfl⟩
  | _ => cases hs

/-- In an expression a group is open at the end of the tokens, or in front of an operator. -/
theorem TokensOf.unclosed {fault : Fault} (h : TokensOf (front ++ rest))
    (hopen : OpenGroup .sum front) (hu : Unclosed rest fault) :
    rest = [] ∧ fault = .missingClosing ∨
      ∃ s us, rest = s :: us ∧ s.isOperator = true ∧ fault = .severalOperands := by
  have hfault := hu.closeGroup_eq .blank
  cases rest with
  | nil =>
      cases hfault
      exact .inl ⟨rfl, rfl⟩
  | cons s us =>
      rcases h.next hopen.exists_getLast? hu.settled with rfl | hop
      · cases hfault
      · have hfault' := (unclosed_operator hop us).closeGroup_eq .blank
        rw [hfault] at hfault'
        cases hfault'
        exact .inr ⟨s, us, rfl, hop, rfl⟩

/-- For the tokens of an expression without blanks and slots, and every last result: tokens that are
left over begin with a closing parenthesis behind a whole sum; a closing parenthesis is reported as
missing exactly when the tokens end behind the operand of an open group; and where something else
than a closing parenthesis follows the operand of a group, with the suffixes that belong to it, the
group is reported to have several operands. -/
theorem ofTokens_parentheses (h : Token.ofExpression t = .ok ts)
    (hblank : ∀ c ∈ t, isBlank c = false) (hslot : blankSymbol ∉ t) (ans : Option Float) :
    (∀ fault, Expr.ofTokens ans ts = .error fault → fault.code = "3012" →
      ∃ taken rest, ts = taken ++ .closing :: rest ∧ Derives .sum taken ∧
        fault = .leftover (Token.join (.closing :: rest))) ∧
    ((∃ fault, Expr.ofTokens ans ts = .error fault ∧ fault.code = "3009") ↔
      OpenGroup .sum ts ∧ Readable ans ts) ∧
    ∀ front s rest, ts = front ++ s :: rest → OpenGroup .sum front → Readable ans front →
      s ≠ .closing → (∀ x, s ≠ .suffix x) →
        Expr.ofTokens ans ts = .error .severalOperands := by
  have hts := tokensOf_ofExpression h hblank hslot
  refine ⟨fun fault hfault hcode => ?_, ⟨?_, ?_⟩, ?_⟩
  · rcases openIn_or_leftOver hfault (by simp [Fault.IsUnbalanced, hcode]) with
      ⟨front, rest, -, -, -, hu⟩ | ⟨s, rest, ⟨⟨taken, rfl, hd⟩, hsettled, hop⟩, rfl⟩
    · rcases hu.fault_cases with rfl | rfl <;> simp [Fault.code] at hcode
    · rcases hts.next hd.exists_getLast? hsettled with rfl | hs
      · exact ⟨taken, rest, rfl, hd, rfl⟩
      · cases s with
        | additive | multiplicative => cases hop
        | _ => cases hs
  · rintro ⟨fault, hfault, hcode⟩
    rcases openIn_or_leftOver hfault (by simp [Fault.IsUnbalanced, hcode]) with
      ⟨front, rest, rfl, hopen, hr, hu⟩ | ⟨s, rest, -, rfl⟩
    · rcases hts.unclosed hopen hu with ⟨rfl, -⟩ | ⟨s, us, -, -, rfl⟩
      · rw [List.append_nil]
        exact ⟨hopen, hr⟩
      · simp [Fault.code] at hcode
    · simp [Fault.code] at hcode
  · rintro ⟨hopen, hr⟩
    exact ⟨.missingClosing,
      ofTokens_of_openIn ⟨ts, [], (List.append_nil ts).symm, hopen, hr, unclosed_nil⟩, rfl⟩
  · rintro front s rest rfl hopen hr hs hsuffix
    have hsettled : Settled (s :: rest) := fun x us he => hsuffix x (List.cons.inj he).1
    have hop := (hts.next hopen.exists_getLast? hsettled).resolve_left hs
    exact ofTokens_of_openIn ⟨front, s :: rest, rfl, hopen, hr, unclosed_operator hop rest⟩

/-- The product that is implied in `(2ans` is a second operand of the group, and `(2` ends in it. -/
theorem ofTokens_parentheses_open :
    (∃ ts, Token.ofExpression ['(', '2', 'a', 'n', 's'] = .ok ts ∧
      Expr.ofTokens none ts = .error .severalOperands) ∧
    ∃ ts, Token.ofExpression ['(', '2'] = .ok ts ∧
      ∃ fault, Expr.ofTokens none ts = .error fault ∧ fault.code = "3009" := by
  let two : Numeral := ⟨false, ['2'], List.cons_ne_nil _ _, by decide⟩
  have hopen : OpenGroup .sum [.opening, .number two] :=
    .term (.signed (.prefixed (.postfixed (.rooted (.unit (.group
      (.prefixed (.postfixed (.rooted (.unit (.number two)))))))))))
  have hread : Readable none [.opening, .number two] := by
    refine ⟨fun n hn => ?_, fun ha => absurd ha (by decide)⟩
    have he : n = two := by simpa using hn
    rw [he]
    exact ⟨⟨'2', List.mem_cons_self, by decide⟩, by decide⟩
  have hblank : ['(', '2', 'a', 'n', 's'].all (fun c => isBlank c = false) = true := by decide
  have hink : ∀ c ∈ ['(', '2', 'a', 'n', 's'], isBlank c = false := fun c hc =>
    of_decide_eq_true (List.all_eq_true.1 hblank c hc)
  have hproduct : Token.ofExpression ['(', '2', 'a', 'n', 's'] =
      .ok [.opening, .number two, .multiplicative .times, .ans] :=
    eq_ok_of_toOption (by decide +kernel)
  have hgroup : Token.ofExpression ['(', '2'] = .ok [.opening, .number two] :=
    eq_ok_of_toOption (by decide +kernel)
  refine ⟨⟨_, hproduct, ?_⟩, ⟨_, hgroup, ?_⟩⟩
  · exact (ofTokens_parentheses hproduct hink (by decide) none).2.2 [.opening, .number two] _ _ rfl
      hopen hread (by decide) fun x hx => by cases hx
  · have hink' : ∀ c ∈ ['(', '2'], isBlank c = false := fun c hc =>
      hink c (List.mem_append_left ['a', 'n', 's'] hc)
    exact (ofTokens_parentheses hgroup hink' (by decide) none).2.1.2 ⟨hopen, hread⟩

end PocketCalculator
