import PocketCalculator.Proofs.Session.Consistency

/-! # What is shown does not matter

`Calculation` is a session without what is shown and without the display format, and
`Calculation.advance` is one key press on it, which knows of no settings.  A press that is not
stopped does nothing else to that part of the session (`calculation_of_pressed`), and the format
goes its own way (`format_of_pressed`).  So two runs with the same keys differ in the shown result
at most, and presses of the format key can be left out as long as they take no SHIFT back
(`history_presentation`). -/

namespace PocketCalculator

/-! ### Sessions that show nothing -/

/-- What a session computes with. -/
structure Calculation where
  buffer : Buffer
  registers : Registers
  shift : Bool
  lastValue : Option Float
  valid : Bool
  deriving DecidableEq

/-- A session without what is shown and without the format. -/
def Session.calculation (s : Session) : Calculation :=
  ⟨s.buffer, s.registers, s.shift, s.lastValue, s.valid⟩

/-- A session with nothing shown. -/
def Session.unshown (s : Session) : Session :=
  { s with result := [] }

namespace Calculation

/-- With SHIFT taken back. -/
def unshifted (c : Calculation) : Calculation :=
  { c with shift := false }

/-- What a key types into the expression, if it types anything. -/
def typing? (c : Calculation) : Key → Option Text
  | .memoryRecall => some (plainText c.registers.memory)
  | k => k.insertion? c.shift

/-- The evaluation by a key. -/
def conclude (c : Calculation) (k : Key) : Calculation :=
  match evaluate c.registers.ans c.buffer.text with
  | .ok x =>
    { c with
      buffer := c.buffer.withFraction .idle
      registers := k.account (c.registers.store x) x
      lastValue := some x
      valid := true }
  | .error failure =>
    if failure.fault.isRefusal then c else { c with lastValue := none, valid := false }

/-- One key press.  The format key does no more than to take SHIFT back. -/
def advance (c : Calculation) (k : Key) : Calculation :=
  match c.typing? k with
  | some t => { c.unshifted with buffer := c.buffer.insert t }
  | none =>
    match k with
    | .shift => { c with shift := !c.shift }
    | .move d => { c.unshifted with buffer := c.buffer.move d }
    | .delete => { c.unshifted with buffer := c.buffer.delete }
    | .sign => { c.unshifted with buffer := c.buffer.toggleSign }
    | .allClear => ⟨.cleared, c.registers, false, none, false⟩
    | .memoryClear => { c.unshifted with registers := c.registers.clearMemory }
    | .equals | .memoryAdd | .memorySubtract => c.unshifted.conclude k
    | _ => c.unshifted

/-- One press of the key of a name. -/
def advanceNamed (c : Calculation) (name : Text) : Calculation :=
  match Key.ofName? name with
  | some k => c.advance k
  | none => c.unshifted

variable {c : Calculation} {k : Key}

theorem advance_of_typing {t : Text} (h : c.typing? k = some t) :
    c.advance k = { c.unshifted with buffer := c.buffer.insert t } := by
  unfold advance
  rw [h]

theorem advance_of_evaluates (hk : k.evaluates = true) :
    c.advance k = c.unshifted.conclude k := by
  cases k with
  | equals | memoryAdd | memorySubtract => rfl
  | _ => cases hk

theorem advanceNamed_format (h : c.shift = false) : c.advanceNamed "FMT".toList = c := by
  have hk : Key.ofName? "FMT".toList = some .format := by decide
  rw [advanceNamed, hk]
  show c.unshifted = c
  rw [unshifted, ← h]

end Calculation

namespace Session

/-- The format after the press of a key, given that after a reset. -/
def nextFormat (reset current : DisplayFormat) : Key → DisplayFormat
  | .format => current.next
  | .allClear => reset
  | _ => current

variable {p q : Profile} {s s' t : Session} {k : Key} {name : Text} {names kept : List Text}

theorem unshown_eq_iff :
    s.unshown = t.unshown ↔ s.calculation = t.calculation ∧ s.format = t.format := by
  simp only [unshown, calculation, Session.mk.injEq, Calculation.mk.injEq, true_and]
  constructor
  · rintro ⟨hb, hr, hs, hf, hl, hv⟩
    exact ⟨⟨hb, hr, hs, hl, hv⟩, hf⟩
  · rintro ⟨⟨hb, hr, hs, hl, hv⟩, hf⟩
    exact ⟨hb, hr, hs, hf, hl, hv⟩

/-! ### One press -/

theorem conclude_calculation (s : Session) (k : Key) :
    s.calculation.unshifted.conclude k =
      match s.outcome with
      | .ok x =>
        { s.calculation.unshifted with
          buffer := s.buffer.withFraction .idle
          registers := k.account (s.registers.store x) x
          lastValue := some x
          valid := true }
      | .error failure =>
        if failure.fault.isRefusal then s.calculation.unshifted
        else { s.calculation.unshifted with lastValue := none, valid := false } :=
  rfl

/-- What is computed does not depend on what is shown. -/
theorem calculation_of_pressed (h : Pressed p s k s' none) :
    s'.calculation = s.calculation.advance k := by
  cases h with
  | typed ht =>
      have htyping : s.calculation.typing? k = s.typing? k := by
        cases k <;> rfl
      rw [Calculation.advance_of_typing (htyping.trans ht)]
      rfl
  | shown hk hx ht =>
      rw [Calculation.advance_of_evaluates hk, conclude_calculation, hx]
      rfl
  | refused hk hf hr =>
      rw [Calculation.advance_of_evaluates hk, conclude_calculation, hf]
      dsimp only
      rw [if_pos hr]
      rfl
  | failed hk hf hr =>
      rw [Calculation.advance_of_evaluates hk, conclude_calculation, hf]
      dsimp only
      rw [if_neg (by rw [hr]; exact Bool.false_ne_true)]
      rfl
  | _ => rfl

theorem format_of_pressed (h : Pressed p s k s' none) :
    s'.format = nextFormat p.defaultFormat s.format k := by
  cases h with
  | typed ht => cases k <;> first | rfl | cases ht
  | shown hk => cases k <;> first | rfl | cases hk
  | refused hk => cases k <;> first | rfl | cases hk
  | failed hk => cases k <;> first | rfl | cases hk
  | _ => rfl

/-- Whether a press is stopped by what cannot be shown. -/
def isDisplay : Option PressFault → Bool
  | some (.display _) => true
  | _ => false

/-- Both parts of a session after a press that is not stopped by what cannot be shown. -/
theorem parts_pressNamed (h : isDisplay (s.pressNamed p name).2 = false) :
    (s.pressNamed p name).1.calculation = s.calculation.advanceNamed name ∧
      (s.pressNamed p name).1.format =
        match Key.ofName? name with
        | some k => nextFormat p.defaultFormat s.format k
        | none => s.format := by
  unfold pressNamed at h ⊢
  unfold Calculation.advanceNamed
  cases hk : Key.ofName? name with
  | none => exact ⟨rfl, rfl⟩
  | some k =>
      rw [hk] at h
      have hpress := pressed_press p s k
      cases hf : (s.press p k).2 with
      | some fault =>
          dsimp only at h
          rw [hf] at h
          cases h
      | none =>
          rw [hf] at hpress
          exact ⟨calculation_of_pressed hpress, format_of_pressed hpress⟩

/-! ### Runs -/

/-- The sessions of a run: at its beginning and after every key.  A press that is stopped does not
end it. -/
def history (p : Profile) (s : Session) : List Text → List Session
  | [] => [s]
  | name :: names => s :: history p (s.pressNamed p name).1 names

/-- The session at the end of a run. -/
def final (p : Profile) (s : Session) (names : List Text) : Session :=
  names.foldl (fun s name => (s.pressNamed p name).1) s

/-- Whether everything that a run has to show can be shown. -/
def showsAll (p : Profile) (s : Session) : List Text → Bool
  | [] => true
  | name :: names =>
    !isDisplay (s.pressNamed p name).2 && showsAll p (s.pressNamed p name).1 names

theorem history_congr (hformat : p.defaultFormat = q.defaultFormat) (h : s.unshown = t.unshown)
    (hp : showsAll p s names = true) (hq : showsAll q t names = true) :
    (history p s names).map unshown = (history q t names).map unshown := by
  induction names generalizing s t with
  | nil => rw [history, history, List.map_singleton, List.map_singleton, h]
  | cons name names ih =>
      rw [showsAll, Bool.and_eq_true, Bool.not_eq_true'] at hp hq
      obtain ⟨hcs, hfs⟩ := parts_pressNamed hp.1
      obtain ⟨hct, hft⟩ := parts_pressNamed hq.1
      obtain ⟨hc, hf⟩ := unshown_eq_iff.1 h
      have hnext : (s.pressNamed p name).1.unshown = (t.pressNamed q name).1.unshown := by
        rw [unshown_eq_iff, hcs, hct, hfs, hft, hc, hf, hformat]
        exact ⟨rfl, rfl⟩
      rw [history, history, List.map_cons, List.map_cons, h, ih hnext hp.2 hq.2]

theorem calculation_final (h : showsAll p s names = true) :
    (final p s names).calculation = names.foldl Calculation.advanceNamed s.calculation := by
  induction names generalizing s with
  | nil => rfl
  | cons name names ih =>
      rw [showsAll, Bool.and_eq_true, Bool.not_eq_true'] at h
      rw [List.foldl_cons, ← (parts_pressNamed h.1).1]
      exact ih h.2

/-! ### The format key left out -/

/-- Some presses of the format key with SHIFT off are left out of a run. -/
inductive Erases (p : Profile) : Session → List Text → List Text → Prop where
  | nil (s : Session) : Erases p s [] []
  | keep {s : Session} {names kept : List Text} (name : Text)
      (h : Erases p (s.pressNamed p name).1 names kept) : Erases p s (name :: names) (name :: kept)
  | drop {s : Session} {names kept : List Text} (hs : s.shift = false)
      (h : Erases p (s.pressNamed p "FMT".toList).1 names kept) :
      Erases p s ("FMT".toList :: names) kept

/-- What is left out makes no difference to the calculation. -/
theorem Erases.foldl_eq (h : Erases p s names kept) (hshow : showsAll p s names = true) :
    kept.foldl Calculation.advanceNamed s.calculation =
      names.foldl Calculation.advanceNamed s.calculation := by
  induction h with
  | nil => rfl
  | keep name h ih =>
      rw [showsAll, Bool.and_eq_true, Bool.not_eq_true'] at hshow
      rw [List.foldl_cons, List.foldl_cons, ← (parts_pressNamed hshow.1).1]
      exact ih hshow.2
  | drop hs h ih =>
      rw [showsAll, Bool.and_eq_true, Bool.not_eq_true'] at hshow
      have hsame := ih hshow.2
      rw [(parts_pressNamed hshow.1).1, Calculation.advanceNamed_format hs] at hsame
      rw [List.foldl_cons, Calculation.advanceNamed_format hs]
      exact hsame

/-- Settings and formats do not matter to what is computed.  Where everything can be shown, two new
sessions that begin in the same format and are given the same keys agree after every key but for the
shown result, and a press of the format key with SHIFT off can be left out. -/
theorem history_presentation (hformat : p.defaultFormat = q.defaultFormat)
    (hp : showsAll p (start p) names = true) (hq : showsAll q (start q) names = true) :
    (history p (start p) names).map unshown = (history q (start q) names).map unshown ∧
    ∀ kept, Erases p (start p) names kept → showsAll p (start p) kept = true →
      (final p (start p) kept).calculation = (final p (start p) names).calculation := by
  refine ⟨history_congr hformat ?_ hp hq, fun kept hkept hshow => ?_⟩
  · rw [start, start, hformat]
  · rw [calculation_final hshow, calculation_final hp, hkept.foldl_eq hp]

/-- A third, shown in three formats with different settings. -/
theorem history_presentation_third :
    let p : Profile := ⟨.standard, .ok Settings.defaults⟩
    let q : Profile := ⟨.standard, .ok [("significant_digits", .int 3), ("decimal_places", .int 1)]⟩
    let front := ["1", "÷", "3", "="].map String.toList
    let back := ["M+", "SHIFT", "FMT", "log"].map String.toList
    let names := front ++ "FMT".toList :: back
    showsAll p (start p) names = true ∧ showsAll q (start q) names = true ∧
      (history p (start p) names).map unshown = (history q (start q) names).map unshown ∧
      Erases p (start p) names (front ++ back) ∧ showsAll p (start p) (front ++ back) = true ∧
      (final p (start p) (front ++ back)).calculation = (final p (start p) names).calculation ∧
      (final p (start p) names).result ≠ (final q (start q) names).result := by
  intro p q front back names
  have hp : showsAll p (start p) names = true := by decide +kernel
  have hq : showsAll q (start q) names = true := by decide +kernel
  have hkept : showsAll p (start p) (front ++ back) = true := by decide +kernel
  have herases : Erases p (start p) names (front ++ back) :=
    .keep _ <| .keep _ <| .keep _ <| .keep _ <| .drop (by decide +kernel) <|
      .keep _ <| .keep _ <| .keep _ <| .keep _ <| .nil _
  obtain ⟨hhistory, hfinal⟩ := history_presentation (p := p) (q := q) rfl hp hq
  exact ⟨hp, hq, hhistory, herases, hkept, hfinal _ herases hkept, by decide +kernel⟩

end Session
end PocketCalculator
