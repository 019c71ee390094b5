import PocketCalculator.Proofs.Evaluation.TypedText
import PocketCalculator.Proofs.Session.Presses

/-! # Typing an expression and evaluating it

After a reset the characters of plain arithmetic are typed one key at a time, and the last key
evaluates what has been typed (`run_typedText`).  The result is the value of the expression
(`run_typed`): zeros that are lost or gained in front change at most the sign of a zero.  Two kinds
of expressions are excepted, and `run_typed_differs` shows why. -/

namespace PocketCalculator.Session

variable {p : Profile} {s s' : Session} {c : Char} {u : Text}

/-! ### Single keys -/

theorem pressNamed_allClear (p : Profile) (s : Session) :
    s.pressNamed p "AC".toList = (s.reset p, none) := by
  have hk : Key.ofName? "AC".toList = some .allClear := by decide
  rw [pressNamed, hk]
  rfl

theorem pressNamed_char (hc : c ∈ arithmeticChars) :
    s.pressNamed p [c] = ({ s.unshifted with buffer := s.buffer.insert [c] }, none) := by
  have key : arithmeticChars.all (fun c => (Key.ofName? [c]).any fun k =>
      k.insertion? true = some [c] ∧ k.insertion? false = some [c]) = true := by decide
  obtain ⟨k, hk, hins⟩ := (Option.any_eq_true _ _).1 (List.all_eq_true.1 key c hc)
  obtain ⟨htrue, hfalse⟩ := of_decide_eq_true hins
  have hshift : k.insertion? s.shift = some [c] := by
    cases s.shift with
    | true => exact htrue
    | false => exact hfalse
  have hpress : s.press p k = ({ s.unshifted with buffer := s.buffer.insert [c] }, none) := by
    unfold press
    dsimp only
    rw [hshift]
    rfl
  rw [pressNamed, hk]
  dsimp only
  rw [hpress]
  rfl

/-- An evaluating key shows a value that can be shown. -/
theorem valid_of_pressed {k : Key} {fault : Option FormatFault} {x : Float} {t : Text}
    (h : Pressed p s k s' fault) (hk : k.evaluates = true) (hx : s.outcome = .ok x)
    (ht : s.format.render p.settings x = .ok t) :
    fault = none ∧ s'.valid = true ∧ s'.registers.ans = some x := by
  cases h with
  | typed h => cases (typing?_of_evaluates hk).symm.trans h
  | shown _ hx' _ =>
      cases hx.symm.trans hx'
      exact ⟨rfl, rfl, k.ans_account _ _⟩
  | notShown _ hx' ht' =>
      cases hx.symm.trans hx'
      cases ht.symm.trans ht'
  | refused _ hf => cases hx.symm.trans hf
  | failed _ hf => cases hx.symm.trans hf
  | _ => cases hk

/-! ### Runs -/

/-- A reset session in which a text has been typed. -/
def typed (p : Profile) (r : Registers) (u : Text) : Session :=
  { start p with buffer := .atEnd u, registers := r }

theorem typeChar_subset (hu : u ⊆ arithmeticChars) (hc : c ∈ arithmeticChars) :
    typeChar u c ⊆ arithmeticChars := by
  have hone : [c] ⊆ arithmeticChars := List.cons_subset.2 ⟨hc, List.nil_subset _⟩
  rw [typeChar]
  split
  · exact hone
  · exact List.append_subset.2 ⟨hu, hone⟩

/-- The keys of plain arithmetic type their characters one after the other. -/
theorem run_chars (r : Registers) {e : Text} (hu : u ⊆ arithmeticChars)
    (he : e ⊆ arithmeticChars) (names : List Text) :
    (typed p r u).run p (e.map (fun c => [c]) ++ names) =
      (typed p r (e.foldl typeChar u)).run p names := by
  induction e generalizing u with
  | nil => rfl
  | cons c e ih =>
      obtain ⟨hc, he⟩ := List.cons_subset.1 he
      have hpress : (typed p r u).pressNamed p [c] = (typed p r (typeChar u c), none) := by
        rw [pressNamed_char hc]
        have hins : (typed p r u).buffer.insert [c] = Buffer.atEnd (typeChar u c) :=
          Buffer.insert_typed hu hc
        rw [hins]
        rfl
      have hnone : ((typed p r u).pressNamed p [c]).2 = none := by rw [hpress]
      rw [List.map_cons, List.cons_append, run_cons_of_none hnone, hpress, List.foldl_cons]
      exact ih (typeChar_subset hu hc) he

theorem exists_render_standard (x : Float) :
    ∃ t, DisplayFormat.standard.render (.ok Settings.defaults) x = .ok t := by
  have hfinite : ∃ t, DisplayFormat.standard.renderFinite Settings.defaults x = .ok t := by
    change ∃ t, formatStandard 8 x = .ok t
    unfold formatStandard
    split
    · split
      · exact ⟨_, rfl⟩
      · exact ⟨_, rfl⟩
    · exact ⟨_, rfl⟩
  unfold DisplayFormat.render
  split
  · exact ⟨_, rfl⟩
  · exact hfinite

/-- What is evaluated in the end is the typed text, with the value of Ans from before the reset. -/
theorem run_typedText {e : Text} {w : Float}
    (hshow : ∀ x, ∃ t, p.defaultFormat.render p.settings x = .ok t) (he : e ⊆ arithmeticChars)
    (hw : PocketCalculator.evaluate s.registers.ans (typedText e) = .ok w) :
    ∃ s', s.run p ("AC".toList :: (e.map (fun c => [c]) ++ ["=".toList])) = .ok s' ∧
      s'.valid = true ∧ s'.registers.ans = some w := by
  obtain ⟨t, ht⟩ := hshow w
  have hcleared : clearedText ⊆ arithmeticChars := by decide
  have hreset : s.reset p = typed p s.registers clearedText := rfl
  have hclear : (s.pressNamed p "AC".toList).2 = none := by rw [pressNamed_allClear]
  have hpress := pressed_press p (typed p s.registers (typedText e)) .equals
  obtain ⟨hfault, hvalid, hans⟩ := valid_of_pressed hpress rfl hw ht
  have hequals : Key.ofName? "=".toList = some .equals := by decide
  refine ⟨_, ?_, hvalid, hans⟩
  rw [run_cons_of_none hclear, pressNamed_allClear, hreset, run_chars s.registers hcleared he,
    foldl_typeChar]
  simp only [run, pressNamed, hequals, hfault, Option.map_none]

/-- Typed key by key after a reset and then evaluated, plain arithmetic with a value shows this
value, up to the sign of zero when a sign comes first. -/
theorem run_typed {e : Text} {v : Float}
    (hshow : ∀ x, ∃ t, p.defaultFormat.render p.settings x = .ok t) (he : e ⊆ arithmeticChars)
    (hopen : e.head? ≠ some '(') (hpoint : hasBarePoint e = false)
    (hv : PocketCalculator.evaluate none e = .ok v) :
    ∃ s' w, s.run p ("AC".toList :: (e.map (fun c => [c]) ++ ["=".toList])) = .ok s' ∧
      s'.valid = true ∧ s'.registers.ans = some w ∧ EqUpToZero w v ∧
      (beginsWithSign e = false → w = v) := by
  obtain ⟨w, hw, hwv, hsign⟩ := exists_evaluate_typedText s.registers.ans he hopen hpoint hv
  obtain ⟨s', hrun, hvalid, hans⟩ := run_typedText hshow he hw
  exact ⟨s', w, hrun, hvalid, hans, hwv, hsign⟩

theorem run_typed_minus :
    let p : Profile := ⟨.standard, .ok Settings.defaults⟩
    let e := "-02%×(3)+07.5".toList
    PocketCalculator.evaluate none e = .ok 7.44 ∧
      ∃ s' w, (start p).run p ("AC".toList :: (e.map (fun c => [c]) ++ ["=".toList])) = .ok s' ∧
        s'.valid = true ∧ s'.registers.ans = some w ∧ EqUpToZero w 7.44 ∧
        (beginsWithSign e = false → w = 7.44) := by
  intro p e
  have hv : (PocketCalculator.evaluate none e).toOption = some 7.44 := by decide +kernel
  have hv' : PocketCalculator.evaluate none e = .ok 7.44 := eq_ok_of_toOption hv
  have he : e ⊆ arithmeticChars := by decide
  exact ⟨hv', run_typed exists_render_standard he (by decide) (by decide) hv'⟩

/-- What is typed need not have the value of the expression: a zero becomes a factor of a
parenthesis, a bare point loses its zero and with it its value, and a sign of zero is lost. -/
theorem run_typed_differs :
    let p : Profile := ⟨.standard, .ok Settings.defaults⟩
    let shown := fun e : Text =>
      ((start p).run p ("AC".toList :: (e.map (fun c => [c]) ++ ["=".toList]))).toOption.map
        fun s => (s.valid, s.registers.ans)
    ((PocketCalculator.evaluate none "(5)".toList).toOption = some 5 ∧
        shown "(5)".toList = some (true, some 0)) ∧
      ((PocketCalculator.evaluate none "0.".toList).toOption = some 0 ∧
        shown "0.".toList = some (false, none)) ∧
      ((PocketCalculator.evaluate none "-0".toList).toOption = some (-0.0) ∧
        shown "-0".toList = some (true, some 0) ∧ (0 : Float) ≠ -0.0) := by
  decide +kernel

end PocketCalculator.Session
