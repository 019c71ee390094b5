import PocketCalculator.Proofs.Buffer.Editing
import PocketCalculator.Proofs.Session.Presses

/-! # What a key press leaves alone

A press that is not stopped changes Ans only to the value of the expression, the memory only by that
value or to zero, and the expression only when the key edits it.  An expression without a value
leaves no more trace than the text of an error, and an incomplete one none at all but SHIFT
(`pressNamed_frame`).

A press that is stopped keeps the expression, the memory and the shown result
(`pressNamed_stopped`), but not the whole session: it takes SHIFT back
(`pressNamed_stopped_changes`). -/

namespace PocketCalculator

namespace Key

/-- Whether a key has nothing to do with the expression but to evaluate it. -/
def keepsExpression : Key → Bool
  | equals | memoryAdd | memorySubtract | memoryClear | format | shift => true
  | _ => false

end Key

namespace Session

variable {p : Profile} {s s' : Session} {k : Key} {fault : Option FormatFault}

theorem typing?_of_keepsExpression (hk : k.keepsExpression = true) : s.typing? k = none := by
  cases k <;> first | rfl | cases hk

/-! ### Registers -/

/-- Ans after a press that is not stopped. -/
def nextAns (s : Session) (k : Key) : Option Float :=
  match k.evaluates, s.outcome with
  | true, .ok x => some x
  | _, _ => s.registers.ans

/-- The memory after a press that is not stopped. -/
def nextMemory (s : Session) (k : Key) : Float :=
  match k, s.outcome with
  | .memoryAdd, .ok x => s.registers.memory + x
  | .memorySubtract, .ok x => s.registers.memory - x
  | .memoryClear, _ => 0
  | _, _ => s.registers.memory

theorem ans_eq_nextAns (hk : k.evaluates = false) : s.registers.ans = s.nextAns k := by
  rw [nextAns, hk]

theorem ans_eq_nextAns_of_error {failure : Failure} (hf : s.outcome = .error failure) :
    s.registers.ans = s.nextAns k := by
  rw [nextAns, hf]
  cases k.evaluates <;> rfl

theorem memory_account {x : Float} (hk : k.evaluates = true) (hx : s.outcome = .ok x) :
    (k.account (s.registers.store x) x).memory = s.nextMemory k := by
  cases k with
  | equals => rfl
  | memoryAdd =>
      simp only [nextMemory, hx]
      rfl
  | memorySubtract =>
      simp only [nextMemory, hx]
      rfl
  | _ => cases hk

theorem memory_eq_nextMemory_of_error {failure : Failure} (hk : k.evaluates = true)
    (hf : s.outcome = .error failure) : s.registers.memory = s.nextMemory k := by
  cases k with
  | equals => rfl
  | memoryAdd => simp only [nextMemory, hf]
  | memorySubtract => simp only [nextMemory, hf]
  | _ => cases hk

theorem ans_of_pressed (h : Pressed p s k s' fault) : s'.registers.ans = s.nextAns k := by
  cases h with
  | typed ht =>
      have hk : k.evaluates = false := by
        cases k <;> first | rfl | cases ht
      exact ans_eq_nextAns (s := s) hk
  | shown hk hx ht =>
      rw [nextAns, hk, hx]
      exact k.ans_account _ _
  | notShown hk hx ht =>
      rw [nextAns, hk, hx]
      rfl
  | refused hk hf hr => exact ans_eq_nextAns_of_error hf
  | failed hk hf hr => exact ans_eq_nextAns_of_error hf
  | _ => exact ans_eq_nextAns (s := s) rfl

theorem memory_of_pressed (h : Pressed p s k s' none) :
    s'.registers.memory = s.nextMemory k := by
  cases h with
  | typed ht => cases k <;> first | rfl | cases ht
  | shown hk hx ht => exact memory_account hk hx
  | refused hk hf hr => exact memory_eq_nextMemory_of_error hk hf
  | failed hk hf hr => exact memory_eq_nextMemory_of_error hk hf
  | _ => rfl

/-! ### The expression -/

theorem buffer_of_pressed (hk : k.keepsExpression = true) (h : Pressed p s k s' fault) :
    s'.buffer.text = s.buffer.text ∧ s'.buffer.cursor = s.buffer.cursor := by
  cases h with
  | typed ht => cases (typing?_of_keepsExpression hk).symm.trans ht
  | moved d => cases hk
  | deleted => cases hk
  | signed => cases hk
  | cleared => cases hk
  | _ => exact ⟨rfl, rfl⟩

theorem text_of_pressed_move {d : Buffer.Direction} (h : Pressed p s (.move d) s' fault) :
    s'.buffer.text = s.buffer.text := by
  cases h with
  | typed ht => cases ht
  | moved => exact s.buffer.text_move d
  | shown hk => cases hk
  | notShown hk => cases hk
  | refused hk => cases hk
  | failed hk => cases hk

/-! ### Expressions without a value -/

theorem pressed_of_error {failure : Failure} (hk : k.evaluates = true)
    (hf : s.outcome = .error failure) (h : Pressed p s k s' fault) :
    s' = if failure.fault.isRefusal then s.unshifted else s.unshifted.fail := by
  cases h with
  | typed ht => cases (typing?_of_evaluates hk).symm.trans ht
  | shown _ hx => cases hf.symm.trans hx
  | notShown _ hx => cases hf.symm.trans hx
  | refused _ hf' hr =>
      cases hf.symm.trans hf'
      rw [if_pos hr]
  | failed _ hf' hr =>
      cases hf.symm.trans hf'
      rw [hr]
      rfl
  | _ => cases hk

/-- What a press of the key `k` may make of the session `s` when it is not stopped. -/
structure Frame (s : Session) (k : Key) (s' : Session) : Prop where
  ans : s'.registers.ans = s.nextAns k
  memory : s'.registers.memory = s.nextMemory k
  expression : k.keepsExpression = true →
    s'.buffer.text = s.buffer.text ∧ s'.buffer.cursor = s.buffer.cursor
  moved : ∀ d, k = .move d → s'.buffer.text = s.buffer.text
  /-- An incomplete expression. -/
  refused : ∀ failure, k.evaluates = true → s.outcome = .error failure →
    failure.fault.isRefusal = true → s' = s.unshifted
  /-- A complete expression without a value. -/
  failed : ∀ failure, k.evaluates = true → s.outcome = .error failure →
    failure.fault.isRefusal = false →
    s' = { s.unshifted with
      lastValue := s'.lastValue
      result := s'.result
      valid := s'.valid }

theorem frame_of_pressed (h : Pressed p s k s' none) : Frame s k s' where
  ans := ans_of_pressed h
  memory := memory_of_pressed h
  expression hk := buffer_of_pressed hk h
  moved d hd := by
    subst hd
    exact text_of_pressed_move h
  refused failure hk hf hr := by
    rw [pressed_of_error hk hf h, if_pos hr]
  failed failure hk hf hr := by
    rw [pressed_of_error hk hf h, hr]
    rfl

theorem pressNamed_frame {name : Text} (hk : Key.ofName? name = some k)
    (h : (s.pressNamed p name).2 = none) : Frame s k (s.pressNamed p name).1 := by
  obtain ⟨k', hk', hs, hn⟩ := exists_key_of_none h
  cases hk.symm.trans hk'
  rw [hs]
  have := pressed_press p s k
  rw [hn] at this
  exact frame_of_pressed this

/-- With `6×7` typed, the key that adds to the memory. -/
theorem pressNamed_frame_memoryAdd :
    let p : Profile := ⟨.standard, .ok Settings.defaults⟩
    let s : Session := { start p with buffer := ⟨"6×7".toList, 3, .idle⟩ }
    Key.ofName? "M+".toList = some .memoryAdd ∧ (s.pressNamed p "M+".toList).2 = none ∧
      s.nextMemory .memoryAdd = 42 ∧ Frame s .memoryAdd (s.pressNamed p "M+".toList).1 := by
  intro p s
  have hk : Key.ofName? "M+".toList = some .memoryAdd := by decide
  have hn : (s.pressNamed p "M+".toList).2 = none := by decide +kernel
  have hm : s.nextMemory .memoryAdd = 42 := by decide +kernel
  exact ⟨hk, hn, hm, pressNamed_frame hk hn⟩

/-! ### Presses that are stopped -/

/-- What the stopped press of the key of a name leaves of the session `s`. -/
structure Stopped (s : Session) (name : Text) (s' : Session) : Prop where
  shift : s'.shift = false
  buffer : s'.buffer = s.buffer
  memory : s'.registers.memory = s.registers.memory
  result : s'.result = s.result
  valid : s'.valid = s.valid
  unknown : Key.ofName? name = none → s' = s.unshifted
  /-- Only the format key changes the format. -/
  format : Key.ofName? name ≠ some .format → s'.format = s.format
  /-- The format key changes no value. -/
  values : Key.ofName? name = some .format →
    s'.registers = s.registers ∧ s'.lastValue = s.lastValue

/-- Only Ans, the last value and the format may differ from the session with SHIFT taken back. -/
theorem stopped_of_fields {name : Text}
    (h : s' = { s.unshifted with
      registers.ans := s'.registers.ans
      lastValue := s'.lastValue
      format := s'.format })
    (hunknown : Key.ofName? name = none → s' = s.unshifted)
    (hformat : Key.ofName? name ≠ some .format → s'.format = s.format)
    (hvalues : Key.ofName? name = some .format →
      s'.registers = s.registers ∧ s'.lastValue = s.lastValue) : Stopped s name s' where
  shift := congrArg (fun s => s.shift) h
  buffer := congrArg (fun s => s.buffer) h
  memory := congrArg (fun s => s.registers.memory) h
  result := congrArg (fun s => s.result) h
  valid := congrArg (fun s => s.valid) h
  unknown := hunknown
  format := hformat
  values := hvalues

/-- A key is stopped only by what cannot be shown: a new value, or the old one in the next
format. -/
theorem stopped_of_pressed {name : Text} {f : FormatFault} (hn : Key.ofName? name = some k)
    (h : Pressed p s k s' (some f)) : Stopped s name s' := by
  have hknown {q : Prop} (hnone : Key.ofName? name = none) : q := by
    cases hn.symm.trans hnone
  cases h with
  | notShown hk hx ht =>
      have hf : k ≠ .format := by
        rintro rfl
        cases hk
      exact stopped_of_fields rfl hknown (fun _ => rfl)
        fun h => absurd (Option.some.inj (hn.symm.trans h)) hf
  | notReshown hv hx ht =>
      exact stopped_of_fields rfl hknown (fun h => absurd hn h) fun _ => ⟨rfl, rfl⟩

theorem pressNamed_stopped {name : Text} {f : PressFault}
    (h : (s.pressNamed p name).2 = some f) : Stopped s name (s.pressNamed p name).1 := by
  unfold pressNamed at h ⊢
  cases hk : Key.ofName? name with
  | none =>
      exact stopped_of_fields rfl (fun _ => rfl) (fun _ => rfl) fun h => by cases hk.symm.trans h
  | some k =>
      rw [hk] at h
      obtain ⟨fault, hf, -⟩ := Option.map_eq_some_iff.1 h
      have := pressed_press p s k
      rw [hf] at this
      exact stopped_of_pressed hk this

/-- The value of `5` cannot be shown when no setting is there. -/
theorem pressNamed_stopped_equals :
    let p : Profile := ⟨.standard, .ok []⟩
    let s := ((start p).pressNamed p "5".toList).1
    (s.pressNamed p "=".toList).2 = some (.display (.missingSetting "significant_digits")) ∧
      Stopped s "=".toList (s.pressNamed p "=".toList).1 := by
  intro p s
  have h : (s.pressNamed p "=".toList).2 =
      some (.display (.missingSetting "significant_digits")) := by decide
  exact ⟨h, pressNamed_stopped h⟩

/-- A stopped press may change SHIFT, Ans with the last value, and the format. -/
theorem pressNamed_stopped_changes :
    (let p : Profile := ⟨.standard, .ok Settings.defaults⟩
      let s := ((start p).pressNamed p "SHIFT".toList).1
      let r := s.pressNamed p "bogus".toList
      r.2 = some (.unknownKey "bogus".toList) ∧ s.shift = true ∧ r.1.shift = false) ∧
    (let p : Profile := ⟨.standard, .ok []⟩
      let s := ((start p).pressNamed p "5".toList).1
      let r := s.pressNamed p "=".toList
      r.2 = some (.display (.missingSetting "significant_digits")) ∧
        s.registers.ans = none ∧ r.1.registers.ans = some 5 ∧
        s.lastValue = none ∧ r.1.lastValue = some 5) ∧
    (let p : Profile := ⟨.standard, .ok [("significant_digits", .int 8)]⟩
      let s := (((start p).pressNamed p "5".toList).1.pressNamed p "=".toList).1
      let r := s.pressNamed p "FMT".toList
      r.2 = some (.display (.missingSetting "decimal_places")) ∧
        s.format = .standard ∧ r.1.format = .fixed) := by
  decide

end Session
end PocketCalculator
