import PocketCalculator.Proofs.Expr.Parsing
import PocketCalculator.Proofs.Token.Acceptance
import PocketCalculator.Proofs.Token.Products

/-! # Groups that are left open

The parser asks for the closing parenthesis of a group behind the operand in it, and what stands
there instead decides between two faults.  `OpenGroup` describes the tokens in front of such a place
by the grammar alone: they begin a phrase and break off behind the operand of a group.  Where they
stand, the parser fails as it does at the end of a group (`OpenGroup.stopped`).  The only other
place for these faults is behind a whole sum, at a closing parenthesis without a group
(`openIn_or_leftOver`). -/

namespace PocketCalculator

/-! ### The grammar of open groups -/

/-- `OpenGroup p ts` says that the tokens `ts` begin a phrase of the kind `p` and break off behind
the operand of a group, in front of the parenthesis that closes it. -/
inductive OpenGroup : Phrase → List Token → Prop where
  | call {ts} (f : CircularFunction) (h : Derives .signed ts) :
      OpenGroup .unit (.circular f :: .opening :: ts)
  | group {ts} (h : Derives .signed ts) : OpenGroup .unit (.opening :: ts)
  | inCall {ts} (f : CircularFunction) (h : OpenGroup .signed ts) :
      OpenGroup .unit (.circular f :: .opening :: ts)
  | inGroup {ts} (h : OpenGroup .signed ts) : OpenGroup .unit (.opening :: ts)
  | unit {ts} (h : OpenGroup .unit ts) : OpenGroup .rooted ts
  | root {ts} (h : OpenGroup .rooted ts) : OpenGroup .rooted (.root :: ts)
  | rootMinus {ts} (h : OpenGroup .rooted ts) :
      OpenGroup .rooted (.root :: .additive .minus :: ts)
  | rootMarker {ts} (m : Marker) (h : OpenGroup .prefixed ts) :
      OpenGroup .rooted (.root :: .marker m :: ts)
  | rootMarkerMinus {ts} (m : Marker) (h : OpenGroup .prefixed ts) :
      OpenGroup .rooted (.root :: .marker m :: .additive .minus :: ts)
  | rooted {ts} (h : OpenGroup .rooted ts) : OpenGroup .postfixed ts
  | postfixed {ts} (h : OpenGroup .postfixed ts) : OpenGroup .prefixed ts
  | marker {ts} (m : Marker) (h : OpenGroup .prefixed ts) : OpenGroup .prefixed (.marker m :: ts)
  | markerMinus {ts} (m : Marker) (h : OpenGroup .prefixed ts) :
      OpenGroup .prefixed (.marker m :: .additive .minus :: ts)
  | prefixed {ts} (h : OpenGroup .prefixed ts) : OpenGroup .signed ts
  | sign {ts} (op : Additive) (h : OpenGroup .signed ts) : OpenGroup .signed (.additive op :: ts)
  | signed {ts} (h : OpenGroup .signed ts) : OpenGroup .term ts
  | product {ts us} (hl : Derives .term ts) (op : Multiplicative) (hr : OpenGroup .signed us) :
      OpenGroup .term (ts ++ .multiplicative op :: us)
  | term {ts} (h : OpenGroup .term ts) : OpenGroup .sum ts
  | sum {ts us} (hl : Derives .sum ts) (op : Additive) (hr : OpenGroup .term us) :
      OpenGroup .sum (ts ++ .additive op :: us)

variable {ans : Option Float} {p : Phrase} {level : OperandLevel} {ts us rest : List Token}
  {e : Expr} {fault : Fault}

/-- The open group may stand in the next operand of a sum. -/
theorem OpenGroup.next (hl : Derives .sum ts) (op : Operator) (hr : OpenGroup .signed us) :
    OpenGroup .sum (ts ++ op.token :: us) := by
  cases op with
  | additive op => exact .sum hl op hr.signed
  | multiplicative op =>
      cases hl with
      | term hl => exact .term (.product hl op hr)
      | sum hl op' hl' =>
          rw [List.append_assoc]
          exact .sum hl op' (.product hl' op hr)

/-! ### Ends of operands -/

/-- A token that may be the last one of an operand. -/
def Token.IsLast (s : Token) : Prop :=
  s.endsOperand = true ∨ s = .blank

theorem exists_getLast?_cons (h : ∃ s, ts.getLast? = some s ∧ s.IsLast) (r : Token) :
    ∃ s, (r :: ts).getLast? = some s ∧ s.IsLast := by
  obtain ⟨s, hs, hlast⟩ := h
  exact ⟨s, by rw [List.getLast?_cons, hs]; rfl, hlast⟩

theorem exists_getLast?_append (h : ∃ s, us.getLast? = some s ∧ s.IsLast) (ts : List Token) :
    ∃ s, (ts ++ us).getLast? = some s ∧ s.IsLast := by
  obtain ⟨s, hs, hlast⟩ := h
  exact ⟨s, by rw [List.getLast?_append, hs]; rfl, hlast⟩

theorem Derives.exists_getLast? (h : Derives p ts) : ∃ s, ts.getLast? = some s ∧ s.IsLast := by
  induction h with
  | term _ ih | signed _ ih | prefixed _ ih | postfixed _ ih | rooted _ ih | unit _ ih => exact ih
  | sum _ op _ _ ih | product _ op _ _ ih =>
      exact exists_getLast?_append (exists_getLast?_cons ih _) _
  | sign _ _ ih | marker _ _ ih | root _ ih => exact exists_getLast?_cons ih _
  | markerMinus _ _ ih | rootMarker _ _ ih | rootMinus _ ih =>
      exact exists_getLast?_cons (exists_getLast?_cons ih _) _
  | rootMarkerMinus _ _ ih =>
      exact exists_getLast?_cons (exists_getLast?_cons (exists_getLast?_cons ih _) _) _
  | suffix _ s => exact ⟨_, List.getLast?_concat, .inl rfl⟩
  | number n => exact ⟨_, rfl, .inl rfl⟩
  | ans => exact ⟨_, rfl, .inl rfl⟩
  | blank => exact ⟨_, rfl, .inr rfl⟩
  | call | group => exact ⟨_, List.getLast?_concat, .inl rfl⟩

theorem OpenGroup.exists_getLast? (h : OpenGroup p ts) :
    ∃ s, ts.getLast? = some s ∧ s.IsLast := by
  induction h with
  | call _ h => exact exists_getLast?_cons (exists_getLast?_cons h.exists_getLast? _) _
  | group h => exact exists_getLast?_cons h.exists_getLast? _
  | unit _ ih | rooted _ ih | postfixed _ ih | prefixed _ ih | signed _ ih | term _ ih => exact ih
  | sum _ _ _ ih | product _ _ _ ih => exact exists_getLast?_append (exists_getLast?_cons ih _) _
  | sign _ _ ih | marker _ _ ih | root _ ih | inGroup _ ih => exact exists_getLast?_cons ih _
  | markerMinus _ _ ih | rootMarker _ _ ih | rootMinus _ ih | inCall _ _ ih =>
      exact exists_getLast?_cons (exists_getLast?_cons ih _) _
  | rootMarkerMinus _ _ ih =>
      exact exists_getLast?_cons (exists_getLast?_cons (exists_getLast?_cons ih _) _) _

theorem Reads.settled (h : Reads ans p ts e rest) (hu : p ≠ .unit) (hr : p ≠ .rooted) :
    Settled rest := by
  induction h with
  | suffixes _ hs => exact hs
  | term _ ih | signed _ ih | plus _ ih | minusLiteral _ ih | minus _ _ ih | prefixed _ ih
  | marker _ ih | markerMinus _ ih | postfixed _ ih => exact ih (by decide) (by decide)
  | sum _ _ _ ih | product _ _ _ ih => exact ih (by decide) (by decide)
  | rootMarker | rootMarkerMinus | rootMinus | root | unit => exact absurd rfl hr
  | number | ans | blank | call | group => exact absurd rfl hu

/-! ### The parser at an open group -/

open PocketCalculator.Expr

/-- Behind the operand of a group the tokens do not go on with the parenthesis that closes it. -/
structure Unclosed (rest : List Token) (fault : Fault) : Prop where
  settled : Settled rest
  closeGroup_eq : ∀ e, closeGroup e rest = .error fault

theorem Unclosed.fault_cases (h : Unclosed rest fault) :
    fault = .severalOperands ∨ fault = .missingClosing := by
  have hc := h.closeGroup_eq .blank
  unfold closeGroup at hc
  split at hc
  · cases hc
  · cases hc
    split
    · exact .inl rfl
    · exact .inr rfl
  · cases hc
    exact .inr rfl

theorem Unclosed.not_missingNumber : ¬Unclosed rest .missingNumber := by
  intro h
  rcases h.fault_cases with h | h <;> cases h

theorem Unclosed.not_unexpectedToken (t : Text) : ¬Unclosed rest (.unexpectedToken t) := by
  intro h
  rcases h.fault_cases with h | h <;> cases h

/-- The parser fails in a phrase.  As in `Parsed`, a unit and a root are read on every level, and a
term and a sum are read as a chain. -/
def Stopped (ans : Option Float) (ts : List Token) (fault : Fault) : Phrase → Prop
  | .rooted | .unit => ∀ level, operand ans level ts = .error fault
  | .postfixed | .prefixed => ∀ level ≠ .rooted, operand ans level ts = .error fault
  | .signed => operand ans .signed ts = .error fault
  | .term | .sum => ((operand ans .signed ts).bind fun r => chainAfter ans r.2) = .error fault

namespace Expr

theorem operand_marker_stopped (hu : Unclosed rest fault) {m : Marker}
    (h : operand ans .marked ts = .error fault) (hl : level ≠ .rooted) :
    operand ans level (.marker m :: ts) = .error fault := by
  rw [operand, h]
  · rfl
  · exact hl
  · rintro us rfl
    rw [operand_minus (by decide)] at h
    cases h
    exact hu.not_missingNumber

theorem operand_markerMinus_stopped {m : Marker} (h : operand ans .marked ts = .error fault)
    (hl : level ≠ .rooted) :
    operand ans level (.marker m :: .additive .minus :: ts) = .error fault := by
  rw [operand, h]
  · rfl
  · exact hl

theorem operand_root_marker_stopped {m : Marker}
    (h : operand ans .marked (.marker m :: ts) = .error fault) (level : OperandLevel) :
    operand ans level (.root :: .marker m :: ts) = .error fault := by
  rw [operand, h]
  rfl

theorem operand_root_stopped (hu : Unclosed rest fault) (h : operand ans .rooted ts = .error fault)
    (level : OperandLevel) : operand ans level (.root :: ts) = .error fault := by
  rw [operand, h]
  · rfl
  · rintro m us rfl
    rw [operand_rooted_marker] at h
    cases h
    exact hu.not_unexpectedToken m.text
  · rintro us rfl
    rw [operand_minus (by decide)] at h
    cases h
    exact hu.not_missingNumber

/-- A group fails as its operand does, or as its end does. -/
theorem operand_group_stopped (hu : Unclosed rest fault)
    (h : operand ans .signed ts = .ok (e, rest) ∨ operand ans .signed ts = .error fault)
    (level : OperandLevel) :
    operand ans level (.opening :: ts) = .error fault ∧
      ∀ f, operand ans level (.circular f :: .opening :: ts) = .error fault := by
  have hclosing : ∀ us, ts ≠ .closing :: us := by
    rintro us rfl
    rw [operand_closing] at h
    rcases h with h | h
    · cases h
    · cases h
      exact hu.not_missingNumber
  have hgroup {f : Expr × List Token → Except Fault (Expr × List Token)} :
      (operand ans .signed ts >>= fun r => closeGroup r.1 r.2 >>= f) = .error fault := by
    rcases h with h | h
    · rw [h]
      show (closeGroup e rest >>= f) = _
      rw [hu.closeGroup_eq]
      rfl
    · rw [h]
      rfl
  constructor
  · rw [operand]
    · exact hgroup
    · exact hclosing
  · intro f
    rw [operand]
    · exact hgroup
    · exact hclosing

/-- A chain fails where the operand behind an operator fails, or the chain behind this operand. -/
theorem chainAfter_stopped {t : Token} {op : Operator} (hop : t.operator? = some op)
    (h : ((operand ans .signed ts).bind fun r => chainAfter ans r.2) = .error fault) :
    chainAfter ans (t :: ts) = .error fault := by
  cases ho : operand ans .signed ts with
  | ok r =>
      rw [ho] at h
      rw [chainAfter_cons hop ho]
      exact congrArg (Except.map _) h
  | error fault' =>
      rw [ho] at h
      rw [chainAfter]
      simp only [hop]
      split
      · rename_i fault'' hf
        rw [ho] at hf
        cases hf
        exact h
      · rename_i hf
        rw [ho] at hf
        cases hf

theorem ChainTo.stopped {more : List (Operator × Expr)} (hc : ChainTo ans us more rest)
    (h : chainAfter ans rest = .error fault) : chainAfter ans us = .error fault := by
  induction hc with
  | nil => exact h
  | cons hop ho _ ih =>
      refine chainAfter_stopped hop ?_
      rw [ho]
      exact ih h

end Expr

/-- Where a group is left open, the parser fails as at the end of a group. -/
theorem OpenGroup.stopped (h : OpenGroup p ts) (hr : Readable ans ts) (hu : Unclosed rest fault) :
    Stopped ans (ts ++ rest) fault p := by
  -- in front of what does not close a group an operand ends where it ends in the grammar
  have whole {p : Phrase} {ts : List Token} (h : Derives p ts) (hr : Readable ans ts)
      (rest : List Token) (hp : ∀ left, p.Leaves rest left → left = rest) :
      ∃ e, Parsed ans (ts ++ rest) e rest p := by
    obtain ⟨e, left, hreads, hleft⟩ := h.exists_reads hr rest
    rw [hp left hleft] at hreads
    exact ⟨e, hreads.parsed⟩
  have inner {ts : List Token} (h : Derives .signed ts) (hr : Readable ans ts) :
      ∃ e, operand ans .signed (ts ++ rest) = .ok (e, rest) :=
    whole h hr rest fun left hleft => hleft.trans (afterSuffixes_of_settled hu.settled)
  induction h with
  | call f h =>
      obtain ⟨e, he⟩ := inner h hr.tail.tail
      exact fun level => (operand_group_stopped hu (.inl he) level).2 f
  | group h =>
      obtain ⟨e, he⟩ := inner h hr.tail
      exact fun level => (operand_group_stopped hu (.inl he) level).1
  | inCall f _ ih =>
      exact fun level => (operand_group_stopped (e := .blank) hu (.inr (ih hr.tail.tail)) level).2 f
  | inGroup _ ih =>
      exact fun level => (operand_group_stopped (e := .blank) hu (.inr (ih hr.tail)) level).1
  | unit _ ih => exact ih hr
  | root _ ih => exact operand_root_stopped hu (ih hr.tail .rooted)
  | rootMinus _ ih =>
      intro level
      rw [List.cons_append, List.cons_append, operand, ih hr.tail.tail .rooted]
      rfl
  | rootMarker m _ ih =>
      exact operand_root_marker_stopped
        (operand_marker_stopped hu (ih hr.tail.tail .marked (by decide)) (by decide))
  | rootMarkerMinus m _ ih =>
      exact operand_root_marker_stopped
        (operand_markerMinus_stopped (ih hr.tail.tail.tail .marked (by decide)) (by decide))
  | rooted _ ih => exact fun level _ => ih hr level
  | postfixed _ ih => exact ih hr
  | marker m _ ih =>
      exact fun level hl => operand_marker_stopped hu (ih hr.tail .marked (by decide)) hl
  | markerMinus m _ ih =>
      exact fun level hl => operand_markerMinus_stopped (ih hr.tail.tail .marked (by decide)) hl
  | prefixed _ ih => exact ih hr .signed (by decide)
  | sign op _ ih =>
      rw [Stopped, List.cons_append, operand, ih hr.tail]
      rfl
  | signed _ ih =>
      rw [Stopped, ih hr]
      rfl
  | @product ts us hl op _ ih =>
      obtain ⟨hrl, hrr⟩ := readable_append.1 hr
      obtain ⟨e, first, vs, more, ho, hc, -⟩ :=
        whole hl hrl (.multiplicative op :: (us ++ rest)) fun left hleft => hleft
      rw [Stopped, List.append_assoc, List.cons_append, ho]
      refine hc.stopped (chainAfter_stopped rfl ?_)
      rw [ih hrr.tail]
      rfl
  | term _ ih => exact ih hr
  | @sum ts us hl op _ ih =>
      obtain ⟨hrl, hrr⟩ := readable_append.1 hr
      obtain ⟨e, first, vs, more, ho, hc, -⟩ :=
        whole hl hrl (.additive op :: (us ++ rest)) fun left hleft => hleft
      rw [Stopped, List.append_assoc, List.cons_append, ho]
      exact hc.stopped (chainAfter_stopped rfl (ih hrr.tail))

/-! ### Where the parser fails at the end of a group -/

/-- A group is left open somewhere in the tokens, with a fault at the end of it. -/
def OpenIn (ans : Option Float) (p : Phrase) (ts : List Token) (fault : Fault) : Prop :=
  ∃ front rest, ts = front ++ rest ∧ OpenGroup p front ∧ Readable ans front ∧ Unclosed rest fault

theorem readable_symbols {before : List Token} (h : ∀ t ∈ before, t.isValue = false) :
    Readable ans before := by
  induction before with
  | nil => exact ⟨fun n hn => absurd hn List.not_mem_nil, fun ha => absurd ha List.not_mem_nil⟩
  | cons t before ih =>
      exact (ih fun r hr => h r (List.mem_cons_of_mem t hr)).cons (h t List.mem_cons_self)

/-- Symbols in front of what has an open group. -/
theorem OpenIn.behind {q : Phrase} (h : OpenIn ans p ts fault) (before : List Token)
    (hb : ∀ t ∈ before, t.isValue = false)
    (hg : ∀ us, OpenGroup p us → OpenGroup q (before ++ us)) :
    OpenIn ans q (before ++ ts) fault := by
  obtain ⟨front, rest, rfl, hopen, hr, hu⟩ := h
  refine ⟨before ++ front, rest, (List.append_assoc _ _ _).symm, hg front hopen, ?_, hu⟩
  exact readable_append.2 ⟨readable_symbols hb, hr⟩

theorem OpenGroup.of_rooted (h : OpenGroup .rooted ts) (level : OperandLevel) :
    OpenGroup level.phrase ts := by
  cases level with
  | rooted => exact h
  | marked => exact h.rooted.postfixed
  | signed => exact h.rooted.postfixed.prefixed

theorem OpenGroup.of_prefixed (h : OpenGroup .prefixed ts) (hl : level = .rooted → False) :
    OpenGroup level.phrase ts := by
  cases level with
  | rooted => exact (hl rfl).elim
  | marked => exact h
  | signed => exact h.prefixed

/-- A root takes the whole operand of a marker behind it, also one with an open group. -/
theorem OpenIn.root_marker {m : Marker} (h : OpenIn ans .prefixed (.marker m :: ts) fault) :
    OpenIn ans .rooted (.root :: .marker m :: ts) fault := by
  obtain ⟨front, rest, hts, hopen, hr, hu⟩ := h
  refine ⟨.root :: front, rest, by rw [hts]; rfl, ?_, hr.cons rfl, hu⟩
  cases hopen with
  | marker m h => exact .rootMarker m h
  | markerMinus m h => exact .rootMarkerMinus m h
  | postfixed h =>
      cases h with
      | rooted h =>
          cases h with
          | unit h => cases h <;> cases hts
          | _ => cases hts

/-- The faults that an open group or a group without an opening parenthesis may have. -/
def Fault.IsUnbalanced (fault : Fault) : Prop :=
  fault.code ∈ ["3009", "3012", "3028"]

theorem not_isUnbalanced_of_readNumber {t : Text} (h : readNumber t = .error fault) :
    ¬fault.IsUnbalanced := by
  unfold readNumber at h
  split at h
  · cases h
    simp [Fault.IsUnbalanced, Fault.code]
  · split at h
    · cases h
    · cases h
      simp [Fault.IsUnbalanced, Fault.code]

theorem not_isUnbalanced_of_ofAns (h : ofAns ans = .error fault) : ¬fault.IsUnbalanced := by
  cases ans with
  | none =>
      cases h
      simp [Fault.IsUnbalanced, Fault.code]
  | some x => cases h

theorem eq_error_or_of_bind {α β : Type} {x : Except Fault α} {f : α → Except Fault β}
    (h : x >>= f = .error fault) : x = .error fault ∨ ∃ a, x = .ok a ∧ f a = .error fault := by
  cases x with
  | error fault' =>
      cases h
      exact .inl rfl
  | ok a => exact .inr ⟨a, rfl, h⟩

/-- A fault at the end of a group does not depend on what is in the group. -/
theorem unclosed_of_closeGroup (h : closeGroup e rest = .error fault) (hs : Settled rest) :
    Unclosed rest fault := by
  refine ⟨hs, fun e' => ?_⟩
  rw [← h]
  unfold closeGroup at h ⊢
  split at h
  · cases h
  · rfl
  · rfl

/-- Where a group fails, its operand has an open group, or it is open itself. -/
theorem openIn_of_group
    (ih : ∀ {fault}, operand ans .signed ts = .error fault → fault.IsUnbalanced →
      OpenIn ans .signed ts fault)
    {f : Expr × List Token → Expr × List Token}
    (h : (operand ans .signed ts >>= fun r => closeGroup r.1 r.2 >>= fun r => pure (f r)) =
      .error fault) (hf : fault.IsUnbalanced) (before : List Token)
    (hb : ∀ t ∈ before, t.isValue = false)
    (hclosed : ∀ us, Derives .signed us → OpenGroup .unit (before ++ us))
    (hopen : ∀ us, OpenGroup .signed us → OpenGroup .unit (before ++ us)) (level : OperandLevel) :
    OpenIn ans level.phrase (before ++ ts) fault := by
  rcases eq_error_or_of_bind h with h | ⟨r, ho, hclose⟩
  · exact (ih h hf).behind before hb fun us hus => (hopen us hus).unit.of_rooted level
  · have hreads : Reads ans .signed ts r.1 r.2 := reads_of_operand ho
    obtain ⟨taken, rfl, hd, hr⟩ := hreads.derives
    refine ⟨before ++ taken, r.2, (List.append_assoc _ _ _).symm, ?_, ?_, ?_⟩
    · exact (hclosed taken hd).unit.of_rooted level
    · exact readable_append.2 ⟨readable_symbols hb, hr⟩
    · have hsettled := hreads.settled (by decide) (by decide)
      exact unclosed_of_closeGroup (eq_error_of_bind_pure hclose) hsettled

theorem openIn_of_operand (h : operand ans level ts = .error fault) (hf : fault.IsUnbalanced) :
    OpenIn ans level.phrase ts fault := by
  fun_induction operand ans level ts generalizing fault
  -- a sign
  case case2 rest op ih =>
    exact (ih (eq_error_of_bind_pure h) hf).behind [.additive op] (by simp [Token.isValue])
      fun us hus => hus.sign op
  -- a marker, with a minus behind it or without one
  case case5 m rest hl ih =>
    exact (ih (eq_error_of_bind_pure h) hf).behind [.marker m, .additive .minus]
      (by simp [Token.isValue]) fun us hus => (hus.markerMinus m).of_prefixed hl
  case case6 m rest hminus hl ih =>
    exact (ih (eq_error_of_bind_pure h) hf).behind [.marker m] (by simp [Token.isValue])
      fun us hus => (hus.marker m).of_prefixed hl
  -- a root, in front of a marker, a minus or another operand
  case case7 level m rest ih =>
    exact (ih (eq_error_of_bind_pure h) hf).root_marker.behind [] (by simp)
      fun us hus => hus.of_rooted level
  case case8 level rest ih =>
    exact (ih (eq_error_of_bind_pure h) hf).behind [.root, .additive .minus]
      (by simp [Token.isValue]) fun us hus => hus.rootMinus.of_rooted level
  case case9 level rest hmarker hminus ih =>
    exact (ih (eq_error_of_bind_pure h) hf).behind [.root] (by simp [Token.isValue])
      fun us hus => hus.root.of_rooted level
  -- a number, the last result
  case case10 =>
    exact absurd hf (not_isUnbalanced_of_readNumber (eq_error_of_bind_pure h))
  case case11 =>
    exact absurd hf (not_isUnbalanced_of_ofAns (eq_error_of_bind_pure h))
  -- a group, with a function in front of it or without one
  case case14 level f rest hclosing ih =>
    exact openIn_of_group ih h hf [.circular f, .opening] (by simp [Token.isValue])
      (fun us hus => .call f hus) (fun us hus => .inCall f hus) level
  case case17 level rest hclosing ih =>
    exact openIn_of_group ih h hf [.opening] (by simp [Token.isValue])
      (fun us hus => .group hus) (fun us hus => .inGroup hus) level
  all_goals
    cases h <;> simp [Fault.IsUnbalanced, Fault.code] at hf

/-! ### Whole sums -/

theorem exists_of_chainAfter_error (h : chainAfter ans us = .error fault) :
    ∃ more, ∃ op : Operator, ∃ vs,
      ChainTo ans us more (op.token :: vs) ∧ operand ans .signed vs = .error fault := by
  fun_induction chainAfter ans us with
  | case1 => cases h
  | case2 => cases h
  | case3 t vs op hop fault' ho =>
      cases h
      rw [Token.eq_token_of_operator? hop]
      exact ⟨[], op, vs, .nil _, ho⟩
  | case4 t vs op hop e ws ho ih =>
      obtain ⟨more, op', xs, hc, hx⟩ := ih (eq_error_of_bind_pure h)
      exact ⟨_, op', xs, .cons hop ho hc, hx⟩

theorem operator?_of_chainAfter {more : List (Operator × Expr)} {s : Token}
    (h : chainAfter ans us = .ok (more, s :: rest)) : s.operator? = none := by
  fun_induction chainAfter ans us generalizing more with
  | case1 => cases h
  | case2 t vs hop =>
      cases h
      exact hop
  | case3 t vs op hop fault ho => cases h
  | case4 t vs op hop e ws ho ih =>
      obtain ⟨⟨more, left⟩, hm, hr⟩ := exists_of_bind_eq_ok h
      cases hr
      exact ih hm

theorem ofTokens_of_openIn (h : OpenIn ans .sum ts fault) : ofTokens ans ts = .error fault := by
  obtain ⟨front, rest, rfl, hopen, hr, hu⟩ := h
  have hs : ((operand ans .signed (front ++ rest)).bind fun r => chainAfter ans r.2) =
    .error fault := hopen.stopped hr hu
  rw [ofTokens]
  cases ho : operand ans .signed (front ++ rest) with
  | error fault' =>
      rw [ho] at hs
      cases hs
      rfl
  | ok r =>
      rw [ho] at hs
      have hc : chainAfter ans r.2 = .error fault := hs
      simp only [bind, Except.bind, hc]

/-- What is left over stands behind a whole sum, and goes on with it in no way. -/
structure LeftOver (ts : List Token) (s : Token) (rest : List Token) : Prop where
  derives : ∃ taken, ts = taken ++ s :: rest ∧ Derives .sum taken
  settled : Settled (s :: rest)
  no_operator : s.operator? = none

/-- A fault of a group or of what is left over comes from an open group, or it names the tokens
behind a whole sum. -/
theorem openIn_or_leftOver (h : ofTokens ans ts = .error fault) (hf : fault.IsUnbalanced) :
    OpenIn ans .sum ts fault ∨
      ∃ s rest, LeftOver ts s rest ∧ fault = .leftover (Token.join (s :: rest)) := by
  rcases eq_error_or_of_bind h with ho | ⟨⟨first, us⟩, ho, h⟩
  · exact .inl ((openIn_of_operand ho hf).behind [] (by simp) fun us hus => hus.signed.term)
  have hfirst : ReadsSoFar ans ts none first us :=
    have hreads : Reads ans .signed ts first us := reads_of_operand ho
    hreads.signed
  rcases eq_error_or_of_bind h with hc | ⟨⟨more, left⟩, hc, h⟩
  · -- an operand behind an operator
    left
    obtain ⟨more, op, vs, hc, hv⟩ := exists_of_chainAfter_error hc
    obtain ⟨taken, rfl, hd, hr⟩ := (Reads.ofChain hfirst hc).derives
    obtain ⟨front, rest, rfl, hopen, hr', hu⟩ := openIn_of_operand hv hf
    refine ⟨taken ++ op.token :: front, rest, by simp, .next hd op hopen, ?_, hu⟩
    refine readable_append.2 ⟨hr, hr'.cons ?_⟩
    cases op <;> rfl
  · -- tokens that no chain takes
    right
    cases left with
    | nil => cases h
    | cons s rest =>
        have hreads := Reads.ofChain hfirst (chainTo_of_chainAfter hc)
        obtain ⟨taken, hts, hd, -⟩ := hreads.derives
        refine ⟨s, rest, ⟨⟨taken, hts, hd⟩, hreads.settled (by decide) (by decide), ?_⟩, ?_⟩
        · exact operator?_of_chainAfter hc
        · simp only [ne_eq, reduceCtorEq, not_false_eq_true, if_true] at h
          cases h
          rfl

end PocketCalculator
