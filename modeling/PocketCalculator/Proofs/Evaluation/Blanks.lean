import PocketCalculator.Proofs.Evaluation.Completeness
import PocketCalculator.Proofs.Evaluation.Refusal
import PocketCalculator.Proofs.Token.Places

/-! # Blanks between tokens

Blanks that are put between two tokens of an expression change neither its tokens
(`ofChars_blanks_between`) nor what is found out about its parentheses and fractions.  They do
change its outcome where they part the parentheses of an empty circular function, because such a
function is an open slot only as it is written by its template, and where no other slot is open.
By `evaluate_blanks_between` this is the only place. -/

namespace PocketCalculator

variable {u v w p : Text}

/-! ### Tokens -/

theorem ofChars_blanks_append (hw : ∀ c ∈ w, isBlank c = true) (previous : Option Token)
    (v : Text) : Token.ofChars previous (w ++ v) = Token.ofChars previous v := by
  rw [← Token.ofChars_stripLeft, Text.stripLeft, List.dropWhile_append_of_pos hw, ← Text.stripLeft,
    Token.ofChars_stripLeft]

/-- Blanks between two tokens are skipped. -/
theorem ofChars_blanks_between (h : Token.BetweenTokens u v) (hw : ∀ c ∈ w, isBlank c = true) :
    Token.ofChars none (u ++ w ++ v) = Token.ofChars none (u ++ v) := by
  cases w with
  | nil => rw [List.append_nil]
  | cons c w =>
      obtain ⟨front, back, hu, -⟩ := Token.betweenTokens_iff.1 h
      have hu' : Token.Scanned none u front (c :: w ++ v) := by
        refine (hu.of_append (u := [])).append fun d hd => ?_
        cases hd
        exact Token.separates_of_isBlank (hw c List.mem_cons_self)
      rw [List.append_assoc, hu'.ofChars_eq, hu.ofChars_eq, ofChars_blanks_append hw]

theorem treeValue_blanks_between (h : Token.BetweenTokens u v) (hw : ∀ c ∈ w, isBlank c = true)
    (ans : Option Float) : treeValue ans (u ++ w ++ v) = treeValue ans (u ++ v) := by
  rw [treeValue, ofChars_blanks_between h hw, treeValue]

/-! ### Open slots -/

theorem infix_of_infix_blanks (hp : ∀ c ∈ p, isBlank c = false) (hw : ∀ c ∈ w, isBlank c = true)
    (hne : w ≠ []) (h : p <:+: u ++ w ++ v) : p <:+: u ∨ p <:+: v := by
  -- a character of `w` that stands in `p` as well
  have apart {c : Char} (hc : c ∈ p) (hc' : c ∈ w) : False := by
    have hb := hp c hc
    rw [hw c hc'] at hb
    cases hb
  have shared {q : Text} (hq : q ≠ []) (hqp : q ⊆ p) (hqw : q ⊆ w) : False := by
    obtain ⟨c, q, rfl⟩ := List.exists_cons_of_ne_nil hq
    exact apart (hqp List.mem_cons_self) (hqw List.mem_cons_self)
  rcases List.infix_append_iff_ne_nil.1 h with h | h | ⟨x, y, hx, -, rfl, hxu, -⟩
  · rcases List.infix_append_iff_ne_nil.1 h with h | h | ⟨x, y, -, hy, rfl, -, hyw⟩
    · exact .inl h
    · by_cases hnil : p = []
      · exact .inl (hnil ▸ List.nil_infix)
      · exact (shared hnil (List.Subset.refl p) h.subset).elim
    · exact (shared hy (List.subset_append_right x y) hyw.subset).elim
  · exact .inr h
  · -- the last character of `x` is the last one of `w`
    obtain ⟨t, ht⟩ := hxu
    have hlast := congrArg List.getLast? ht
    rw [List.getLast?_append_of_ne_nil _ hx, List.getLast?_append_of_ne_nil _ hne,
      List.getLast?_eq_some_getLast hne] at hlast
    exact (apart (List.mem_append_left y (List.mem_of_getLast? hlast)) (List.getLast_mem hne)).elim

/-- The parentheses of an empty circular function end the text `u` and begin the text `v`. -/
def PartsCall (u v : Text) : Prop :=
  ∃ f : CircularFunction, f.text ++ ['('] <:+ u ∧ [')'] <+: v

/-- Between two tokens an empty circular function is parted between its parentheses only. -/
theorem partsCall_of_stands (h : Token.BetweenTokens u v) {f : CircularFunction}
    (hf : f.text ++ ['(', ')'] <:+: u ++ v) :
    f.text ++ ['(', ')'] <:+: u ∨ f.text ++ ['(', ')'] <:+: v ∨ PartsCall u v := by
  rcases List.infix_append_iff_ne_nil.1 hf with hu | hv | ⟨x, y, hx, hy, hxy, ⟨t, rfl⟩, ⟨b, rfl⟩⟩
  · exact .inl hu
  · exact .inr (.inl hv)
  · obtain ⟨y, c, rfl⟩ := (List.eq_nil_or_concat' y).resolve_left hy
    have hsplit : (f.text ++ ['(']) ++ [')'] = (x ++ y) ++ [c] := by
      rw [List.append_assoc, List.append_assoc]
      exact hxy
    obtain ⟨hhead, hc⟩ := List.append_inj' hsplit rfl
    cases hc
    rw [List.append_assoc] at h
    have hy' := h.not_inside_circular hhead.symm hx
    subst hy'
    rw [List.append_nil] at hhead
    exact .inr (.inr ⟨f, ⟨t, by rw [hhead]⟩, ⟨b, rfl⟩⟩)

theorem hasBlank_of_blanks_between (hw : ∀ c ∈ w, isBlank c = true)
    (h : hasBlank (u ++ w ++ v) = true) : hasBlank (u ++ v) = true := by
  by_cases hne : w = []
  · rwa [hne, List.append_nil] at h
  · rw [hasBlank_iff] at h ⊢
    rcases h with h | ⟨f, h⟩
    · refine .inl ?_
      have hb : blankSymbol ∉ w := fun hm => absurd (hw _ hm) (by decide)
      simpa [hb] using h
    · refine .inr ⟨f, ?_⟩
      have hp : ∀ c ∈ f.text ++ ['(', ')'], isBlank c = false := by
        intro c hc
        rw [← List.singleton_append, ← List.append_assoc] at hc
        rcases List.mem_append.1 hc with hc | hc
        · exact Head.isBlank_of_mem_text (h := .circular f) hc
        · rw [List.mem_singleton.1 hc]
          decide
      rcases infix_of_infix_blanks hp hw hne h with h | h
      · exact List.infix_append_of_infix_left h
      · exact List.infix_append_of_infix_right h

theorem hasBlank_blanks_between (h : Token.BetweenTokens u v) (hb : hasBlank (u ++ v) = true)
    (hp : ¬PartsCall u v) (w : Text) : hasBlank (u ++ w ++ v) = true := by
  rw [hasBlank_iff] at hb ⊢
  rcases hb with hb | ⟨f, hf⟩
  · refine .inl ?_
    rcases List.mem_append.1 hb with hb | hb
    · exact List.mem_append_left v (List.mem_append_left w hb)
    · exact List.mem_append_right (u ++ w) hb
  · refine .inr ⟨f, ?_⟩
    rcases partsCall_of_stands h hf with hu | hv | hparts
    · exact List.infix_append_of_infix_left (List.infix_append_of_infix_left hu)
    · exact List.infix_append_of_infix_right hv
    · exact absurd hparts hp

/-! ### Outcomes -/

/-- The blanks `w` part the parentheses of an empty circular function, and no slot is open but this
one. -/
def ExposesCall (u w v : Text) : Prop :=
  PartsCall u v ∧ w ≠ [] ∧ hasBlank (u ++ w ++ v) = false

theorem incompleteness?_blanks_between (h : Token.BetweenTokens u v)
    (hw : ∀ c ∈ w, isBlank c = true) (hx : ¬ExposesCall u w v) :
    incompleteness? (u ++ w ++ v) = incompleteness? (u ++ v) := by
  have hfilter : (u ++ w ++ v).filter (fun c => !isBlank c) =
      (u ++ v).filter fun c => !isBlank c := by
    have hnone : w.filter (fun c => !isBlank c) = [] :=
      List.filter_eq_nil_iff.2 fun c hc => by rw [hw c hc]; decide
    simp only [List.filter_append, hnone, List.append_nil]
  refine incompleteness?_of_filter hfilter (Bool.eq_iff_iff.2 ⟨hasBlank_of_blanks_between hw, ?_⟩)
  intro hb
  by_cases hp : PartsCall u v
  · by_cases hne : w = []
    · rwa [hne, List.append_nil]
    · by_contra hnot
      exact hx ⟨hp, hne, Bool.eq_false_iff.2 hnot⟩
  · exact hasBlank_blanks_between h hb hp w

theorem hasBlank_of_evaluate {ans : Option Float} {t : Text} {failure : Failure}
    (h : evaluate ans t = .error failure) (hc : failure.fault.code = Fault.blankLeft.code) :
    hasBlank t = true := by
  have hfault : failure.fault = .blankLeft := by
    generalize failure.fault = fault at hc
    cases fault with
    | blankLeft => rfl
    | _ => simp [Fault.code] at hc
  have hr := isRefusal_of_evaluate h
  rw [hfault] at hr
  obtain ⟨fault, hi⟩ := Option.isSome_iff_exists.1 hr.symm
  rw [evaluate_eq, hi] at h
  cases h
  cases hfault
  unfold incompleteness? at hi
  split at hi
  · assumption
  · split at hi
    · cases hi
    · split at hi
      all_goals cases hi

theorem hasBlank_of_partsCall (h : PartsCall u v) : hasBlank (u ++ v) = true := by
  obtain ⟨f, ⟨t, rfl⟩, ⟨b, rfl⟩⟩ := h
  refine hasBlank_iff.2 (.inr ⟨f, t, b, ?_⟩)
  simp

/-- Blanks between two tokens leave the outcome of an expression as it is, unless they part the
parentheses of an empty circular function that is its only open slot: then the expression is no
longer refused for an open slot. -/
theorem evaluate_blanks_between (h : Token.BetweenTokens u v) (hw : ∀ c ∈ w, isBlank c = true)
    (ans : Option Float) :
    (¬ExposesCall u w v →
      (evaluate ans (u ++ w ++ v)).mapError Failure.fault =
        (evaluate ans (u ++ v)).mapError Failure.fault) ∧
    (ExposesCall u w v →
      evaluate ans (u ++ v) = .error ⟨.blankLeft, some (u ++ v)⟩ ∧
      ∀ failure, evaluate ans (u ++ w ++ v) = .error failure →
        failure.fault.code ≠ Fault.blankLeft.code) := by
  refine ⟨fun hx => ?_, fun ⟨hp, _, hb⟩ => ⟨?_, fun failure hf hc => ?_⟩⟩
  · have hi := incompleteness?_blanks_between h hw hx
    exact evaluate_congr hi (treeValue_blanks_between h hw ans)
  · rw [evaluate_eq, incompleteness?, hasBlank_of_partsCall hp]
    rfl
  · rw [hasBlank_of_evaluate hf hc] at hb
    cases hb

theorem evaluate_blanks_between_minus_and_call :
    (evaluate none ['6', '/', ' ', '\t', '-', '2', '√', '9']).mapError Failure.fault =
      (evaluate none ['6', '/', '-', '2', '√', '9']).mapError Failure.fault ∧
    evaluate none ['t', 'a', 'n', '(', ')'] =
      .error ⟨.blankLeft, some ['t', 'a', 'n', '(', ')']⟩ := by
  have hblanks : [' ', '\t'].all isBlank = true := by decide
  have hminus := evaluate_blanks_between (u := ['6', '/']) (v := ['-', '2', '√', '9'])
    (by decide +kernel) (List.all_eq_true.1 hblanks) none
  have hcall := evaluate_blanks_between (u := ['t', 'a', 'n', '(']) (v := [')'])
    (by decide +kernel) (List.all_eq_true.1 hblanks) none
  refine ⟨hminus.1 fun ⟨⟨_, _, hclosing⟩, _⟩ => absurd hclosing (by decide), (hcall.2 ?_).1⟩
  exact ⟨⟨⟨.tan, false⟩, List.suffix_rfl, List.prefix_rfl⟩, by decide, by decide⟩

/-- The kind and the code of a failed evaluation. -/
def failureCode? (r : Except Failure Float) : Option (FaultKind × String) :=
  match r with
  | .ok _ => none
  | .error failure => some (failure.fault.kind, failure.fault.code)

/-- A blank between the parentheses of an empty sine, where no token stands. -/
theorem evaluate_blanks_between_differs :
    Token.BetweenTokens ['s', 'i', 'n', '('] [')'] ∧ isBlank ' ' = true ∧
    failureCode? (evaluate none ['s', 'i', 'n', '(', ')']) = some (.incompleteInput, "3032") ∧
    failureCode? (evaluate none ['s', 'i', 'n', '(', ' ', ')']) =
      some (.malformedOperand, "2001") := by
  decide +kernel

end PocketCalculator
