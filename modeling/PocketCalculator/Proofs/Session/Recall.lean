import PocketCalculator.Proofs.Evaluation.Refusal
import PocketCalculator.Proofs.Number.PlainText
import PocketCalculator.Proofs.Session.Effects
import PocketCalculator.Proofs.Session.Typing

/-! # Recalling the memory

After a reset the memory is put into the expression as its plain text.  The text of a finite double
takes the place of the cleared zero or, when it begins with a minus, is taken from that zero; either
way it has the value of the memory (`exists_evaluate_recalled`).  The texts of the infinities and of
what is not a number are no expressions at all, so such a memory cannot be recalled
(`run_recalled`). -/

namespace PocketCalculator

/-! ### Plain texts -/

theorem exists_numeral_of_isFinite {x : Float} (hx : x.isFinite = true) :
    ∃ (n : Numeral) (y : Float), n.text = plainText x ∧ n.body ⊆ arithmeticChars ∧
      (∀ c ∈ n.body.head?, isAsciiDigit c = true) ∧ n.value = .ok y ∧ EqUpToZero y x := by
  by_cases h0 : x = -0.0
  · subst h0
    refine ⟨zeroNumeral, 0, by decide, ?_, ?_, value_zeroNumeral, .inr ?_⟩
    · exact List.cons_subset.2 ⟨by decide, List.nil_subset _⟩
    · rintro _ ⟨⟩
      decide
    · decide
  · obtain ⟨n, ht, hplain, hfirst, hv⟩ := exists_numeral_plainText hx h0
    exact ⟨n, x, ht, fun c hc => mem_arithmeticChars_plain (hplain c hc), hfirst, hv, .refl x⟩

theorem plainText_of_not_isFinite {x : Float} (hx : x.isFinite = false) :
    plainText x ∈ ["nan".toList, "inf".toList, "-inf".toList] := by
  have hd : Dyadic.ofFloat? x = none := by
    rw [← Dyadic.isSome_ofFloat?, Option.isSome_eq_false_iff, Option.isNone_iff_eq_none] at hx
    exact hx
  rw [plainText, hd]
  dsimp only
  rw [recordText, RecordLayout.text, hd]
  dsimp only
  split
  · exact List.mem_cons_self
  · cases signBit x <;> decide

/-! ### The text that is recalled -/

/-- What the expression is after a reset and a recall of the memory. -/
def recalledText (x : Float) : Text :=
  if Buffer.replacesZero (plainText x) then plainText x else '0' :: plainText x

theorem ofText?_plainText (x : Float) : Template.ofText? (plainText x) = none := by
  cases hx : x.isFinite with
  | true =>
      obtain ⟨n, -, ht, -⟩ := exists_numeral_of_isFinite hx
      rw [← ht]
      exact Template.ofText?_eq_none (n.not_mem_text (by decide) (by decide))
        (n.not_mem_text (by decide) (by decide))
  | false =>
      have key : ∀ t ∈ ["nan".toList, "inf".toList, "-inf".toList],
          (Template.ofText? t).isNone = true := by decide
      exact Option.isNone_iff_eq_none.1 (key _ (plainText_of_not_isFinite hx))

theorem plainText_ne_nil (x : Float) : plainText x ≠ [] := by
  cases hx : x.isFinite with
  | true =>
      obtain ⟨n, -, ht, -⟩ := exists_numeral_of_isFinite hx
      exact ht ▸ n.text_ne_nil
  | false =>
      have key : ∀ t ∈ ["nan".toList, "inf".toList, "-inf".toList], t ≠ [] := by decide
      exact key _ (plainText_of_not_isFinite hx)

theorem insert_plainText (x : Float) :
    Buffer.cleared.insert (plainText x) = .atEnd (recalledText x) := by
  have hcleared : clearedText ⊆ arithmeticChars := by decide
  have h := Buffer.insert_atEnd hcleared (plainText_ne_nil x) (ofText?_plainText x)
  rw [decide_eq_true rfl, Bool.true_and] at h
  exact h

/-! ### Its value -/

variable {x : Float}

theorem incompleteness?_numeral {n : Numeral} (hn : n.body ⊆ arithmeticChars) {t : Text}
    (ht : t ⊆ '0' :: n.text) : incompleteness? t = none := by
  have hparen {c : Char} (h0 : c ≠ '0') (hm : c ≠ '-') (hc : isNumeralChar c = false) :
      t.count c = 0 := by
    refine List.count_eq_zero.2 fun h => ?_
    rcases List.mem_cons.1 (ht h) with h | h
    · exact h0 h
    · exact n.not_mem_text hm hc h
  have harithmetic : t ⊆ arithmeticChars := by
    intro c hc
    rcases List.mem_cons.1 (ht hc) with rfl | h
    · decide
    · rcases Numeral.eq_or_mem_of_mem_text h with rfl | h
      · decide
      · exact hn h
  rw [incompleteness?_eq_none_iff harithmetic,
    hparen (by decide) (by decide) (by decide),
    hparen (by decide) (by decide) (by decide)]

/-- A finite double has its value again. -/
theorem exists_evaluate_recalled (ans : Option Float) (hx : x.isFinite = true) :
    ∃ w, evaluate ans (recalledText x) = .ok w ∧ EqUpToZero w x := by
  obtain ⟨n, y, ht, hbody, hfirst, hv, hyx⟩ := exists_numeral_of_isFinite hx
  have hvalue : treeValue ans n.text = .ok y := (treeValue_numeral ans n).trans hv
  rw [recalledText, ← ht]
  cases hn : n.negative with
  | false =>
      have hreplaces : Buffer.replacesZero n.text = true := by
        obtain ⟨c, body, hb⟩ := List.exists_cons_of_ne_nil n.body_ne_nil
        have hc := isDecimalDigit_of_isAsciiDigit (hfirst c (by rw [hb]; rfl))
        rw [Numeral.text, hn, if_neg Bool.false_ne_true, hb, Buffer.replacesZero, List.head?_cons,
          Option.any_some, hc]
        rfl
      have hcomplete := incompleteness?_numeral hbody (List.subset_cons_self '0' n.text)
      rw [if_pos hreplaces]
      exact ⟨y, evaluate_of_treeValue hcomplete hvalue, hyx⟩
  | true =>
      have htext : n.text = '-' :: n.body := by rw [Numeral.text, hn, if_pos rfl]
      have hreplaces : Buffer.replacesZero n.text = false := by
        have hans : n.text ≠ ansName := by
          rw [htext]
          intro h
          cases h
        have hpoint : n.text ≠ ['.'] := by
          rw [htext]
          intro h
          cases h
        have htemplate : Template.ofText? n.text = none := ht ▸ ofText?_plainText x
        have hminus : n.text.head?.any isDecimalDigit = false := by
          rw [htext]
          rfl
        rw [Buffer.replacesZero, hminus, htemplate, decide_eq_false hans, decide_eq_false hpoint]
        rfl
      have hcomplete := incompleteness?_numeral hbody (List.Subset.refl ('0' :: n.text))
      have hsuffix (s : Suffix) (hs : ∀ c ∈ s.text, c ∈ n.body) : s = .percent :=
        Suffix.eq_percent fun c hc => hbody (hs c hc)
      -- the minus is an operator behind the zero
      have hminus : treeValue ans (Additive.minus.symbol :: n.body) = .ok y := htext ▸ hvalue
      obtain ⟨w, hw, hwy⟩ := treeValue_zero_cons hsuffix hminus
      rw [hreplaces, if_neg Bool.false_ne_true]
      rw [htext] at hcomplete ⊢
      exact ⟨w, evaluate_of_treeValue hcomplete hw, hwy.trans hyx⟩

theorem exists_evaluate_recalled_error (ans : Option Float) (hx : x.isFinite = false) :
    ∃ failure, evaluate ans (recalledText x) = .error failure ∧
      failure.fault.isRefusal = false := by
  have key : ∀ t ∈ ["nan".toList, "inf".toList, "-inf".toList],
      Buffer.replacesZero t = false ∧ (incompleteness? ('0' :: t)).isNone = true ∧
        (Token.ofChars none ('0' :: t)).toOption.isNone = true := by decide +kernel
  obtain ⟨hreplaces, hcomplete, hscan⟩ := key _ (plainText_of_not_isFinite hx)
  rw [recalledText, hreplaces, if_neg Bool.false_ne_true]
  cases h : evaluate ans ('0' :: plainText x) with
  | ok v =>
      obtain ⟨ts, hts, -⟩ := Expr.exists_of_bind_eq_ok (treeValue_of_evaluate h).2
      rw [hts] at hscan
      cases hscan
  | error failure =>
      refine ⟨failure, rfl, ?_⟩
      rw [isRefusal_of_evaluate h, Option.isNone_iff_eq_none.1 hcomplete]
      rfl

/-! ### The keys -/

namespace Session

variable {p : Profile} {s s' : Session}

theorem fault_eq_none_of_error {k : Key} {fault : Option FormatFault} {failure : Failure}
    (h : Pressed p s k s' fault) (hf : s.outcome = .error failure) (hk : k.evaluates = true) :
    fault = none := by
  cases h with
  | notShown _ hx => cases hf.symm.trans hx
  | notReshown => cases hk
  | _ => rfl

/-- The keys that recall the memory after a reset and evaluate it. -/
def recallKeys : List Text :=
  ["AC", "MR", "="].map String.toList

/-- The last of these keys evaluates the recalled text. -/
theorem run_recallKeys
    (h : ((typed p s.registers (recalledText s.registers.memory)).press p .equals).2 = none) :
    s.run p recallKeys =
      .ok ((typed p s.registers (recalledText s.registers.memory)).press p .equals).1 := by
  have hrecall : Key.ofName? "MR".toList = some .memoryRecall := by decide
  have hequals : Key.ofName? "=".toList = some .equals := by decide
  have hclear : (s.pressNamed p "AC".toList).2 = none := by rw [pressNamed_allClear]
  have hpress : (s.reset p).pressNamed p "MR".toList =
      (typed p s.registers (recalledText s.registers.memory), none) := by
    have hins : (s.reset p).buffer.insert (plainText (s.reset p).registers.memory) =
        .atEnd (recalledText s.registers.memory) := insert_plainText s.registers.memory
    rw [pressNamed, hrecall]
    simp only [press, Key.insertion?, typeText, hins]
    rfl
  have hnone : ((s.reset p).pressNamed p "MR".toList).2 = none := by rw [hpress]
  rw [recallKeys, List.map_cons, run_cons_of_none hclear, pressNamed_allClear, List.map_cons,
    run_cons_of_none hnone, hpress]
  simp only [List.map_cons, List.map_nil, run, pressNamed, hequals, h, Option.map_none]

/-- A finite memory is the result again, up to the sign of zero, when it is recalled and evaluated
after a reset.  A memory that is not finite gives the text of an error instead. -/
theorem run_recalled (s : Session)
    (hshow : ∀ x, ∃ t, p.defaultFormat.render p.settings x = .ok t) :
    ∃ s', s.run p recallKeys = .ok s' ∧
      (s.registers.memory.isFinite = true → s'.valid = true ∧
        ∃ w, s'.registers.ans = some w ∧ EqUpToZero w s.registers.memory) ∧
      (s.registers.memory.isFinite = false → s'.valid = false ∧ s'.result = errorText ∧
        s'.registers = s.registers) := by
  have hpress := pressed_press p (typed p s.registers (recalledText s.registers.memory)) .equals
  cases hx : s.registers.memory.isFinite with
  | true =>
      obtain ⟨w, hw, hwx⟩ := exists_evaluate_recalled s.registers.ans hx
      obtain ⟨t, ht⟩ := hshow w
      obtain ⟨hfault, hvalid, hans⟩ := valid_of_pressed hpress rfl hw ht
      refine ⟨_, run_recallKeys hfault, fun _ => ⟨hvalid, w, hans, hwx⟩, fun h => ?_⟩
      cases h
  | false =>
      obtain ⟨failure, h, hr⟩ := exists_evaluate_recalled_error s.registers.ans hx
      have hf : (typed p s.registers (recalledText s.registers.memory)).outcome =
          .error failure := h
      have hfault := fault_eq_none_of_error hpress hf rfl
      have hs := pressed_of_error rfl hf hpress
      rw [hr, if_neg Bool.false_ne_true] at hs
      refine ⟨_, run_recallKeys hfault, fun h => ?_, fun _ => ?_⟩
      · cases h
      · rw [hs]
        exact ⟨rfl, rfl, rfl⟩

theorem run_recalled_negative :
    let p : Profile := ⟨.standard, .ok Settings.defaults⟩
    let s : Session := { start p with registers := ⟨none, -0.1⟩ }
    (∀ x, ∃ t, p.defaultFormat.render p.settings x = .ok t) ∧
      s.registers.memory.isFinite = true ∧
      ∃ s', s.run p recallKeys = .ok s' ∧ s'.valid = true ∧
        ∃ w, s'.registers.ans = some w ∧ EqUpToZero w (-0.1) := by
  intro p s
  have hfinite : s.registers.memory.isFinite = true := by decide
  obtain ⟨s', hrun, hvalue, -⟩ := run_recalled (p := p) s exists_render_standard
  exact ⟨exists_render_standard, hfinite, s', hrun, hvalue hfinite⟩

/-- A value that is too big for a double is kept in the memory and cannot be recalled. -/
theorem run_recalled_differs :
    let p : Profile := ⟨.standard, .ok Settings.defaults⟩
    let names := ["9", "EXP", "3", "0", "8", "M+"].map String.toList
    ((start p).run p names).toOption.map (fun s => (s.valid, s.registers.memory.isFinite)) =
        some (true, false) ∧
      ((start p).run p (names ++ recallKeys)).toOption.map (fun s => (s.valid, s.result)) =
        some (false, errorText) := by
  decide +kernel

end Session
end PocketCalculator
