import PocketCalculator.Session

/-! # What a key press can do

A key types a text, edits the expression in another way, evaluates it, switches the format, or acts
on SHIFT, the memory or the whole session.  `Pressed` lists every way in which a press can end, with
the session after it and the fault that stopped it, if any; `pressed_press` says that there are no
others.  What holds of a press is then shown case by case, without opening the functions behind it.

A run presses the keys of a list of names one after the other, and comes to an end early when a
press is stopped. -/

namespace PocketCalculator

/-! ### Keys that evaluate -/

namespace Key

/-- Whether a key evaluates the expression. -/
def evaluates : Key → Bool
  | equals | memoryAdd | memorySubtract => true
  | _ => false

/-- What an evaluating key does to the registers with the value found. -/
def account : Key → Registers → Float → Registers
  | memoryAdd => .add
  | memorySubtract => .subtract
  | _ => fun r _ => r

theorem ans_account (k : Key) (r : Registers) (x : Float) : (k.account r x).ans = r.ans := by
  cases k <;> rfl

end Key

namespace Session

/-! ### One press -/

/-- The session with SHIFT taken back. -/
def unshifted (s : Session) : Session :=
  { s with shift := false }

/-- The value of the expression, or why it has none. -/
def outcome (s : Session) : Except Failure Float :=
  PocketCalculator.evaluate s.registers.ans s.buffer.text

/-- What a key types into the expression, if it types anything. -/
def typing? (s : Session) : Key → Option Text
  | .memoryRecall => some (plainText s.registers.memory)
  | k => k.insertion? s.shift

theorem typing?_of_evaluates {s : Session} {k : Key} (hk : k.evaluates = true) :
    s.typing? k = none := by
  cases k with
  | equals => rfl
  | memoryAdd => rfl
  | memorySubtract => rfl
  | _ => cases hk

/-- The session in which the value of the expression is kept. -/
def stored (s : Session) (x : Float) : Session :=
  { s with registers := s.registers.store x, lastValue := some x }

/-- The ways in which the press of a key can end: the session after it, and the fault that stopped
it. -/
inductive Pressed (p : Profile) (s : Session) : Key → Session → Option FormatFault → Prop where
  | typed {k t} (ht : s.typing? k = some t) :
      Pressed p s k { s.unshifted with buffer := s.buffer.insert t } none
  | moved (d : Buffer.Direction) :
      Pressed p s (.move d) { s.unshifted with buffer := s.buffer.move d } none
  | deleted : Pressed p s .delete { s.unshifted with buffer := s.buffer.delete } none
  | signed : Pressed p s .sign { s.unshifted with buffer := s.buffer.toggleSign } none
  | shifted : Pressed p s .shift { s with shift := !s.shift } none
  | cleared : Pressed p s .allClear (s.reset p) none
  | memoryCleared :
      Pressed p s .memoryClear { s.unshifted with registers := s.registers.clearMemory } none
  /-- The expression has a value, which is kept and shown. -/
  | shown {k x t} (hk : k.evaluates = true) (hx : s.outcome = .ok x)
      (ht : s.format.render p.settings x = .ok t) :
      Pressed p s k
        { s.unshifted with
          buffer := s.buffer.withFraction .idle
          registers := k.account (s.registers.store x) x
          lastValue := some x
          result := t
          valid := true } none
  /-- The expression has a value, which is kept but cannot be shown. -/
  | notShown {k x fault} (hk : k.evaluates = true) (hx : s.outcome = .ok x)
      (ht : s.format.render p.settings x = .error fault) :
      Pressed p s k (s.unshifted.stored x) (some fault)
  /-- The expression is incomplete. -/
  | refused {k failure} (hk : k.evaluates = true) (hf : s.outcome = .error failure)
      (hr : failure.fault.isRefusal = true) : Pressed p s k s.unshifted none
  /-- The expression is complete and has no value. -/
  | failed {k failure} (hk : k.evaluates = true) (hf : s.outcome = .error failure)
      (hr : failure.fault.isRefusal = false) : Pressed p s k s.unshifted.fail none
  /-- There is no result to be shown in the next format. -/
  | switched (hv : s.valid = true → s.lastValue = none) :
      Pressed p s .format { s.unshifted with format := s.format.next } none
  | reshown {x t} (hv : s.valid = true) (hx : s.lastValue = some x)
      (ht : s.format.next.render p.settings x = .ok t) :
      Pressed p s .format { s.unshifted with format := s.format.next, result := t } none
  | notReshown {x fault} (hv : s.valid = true) (hx : s.lastValue = some x)
      (ht : s.format.next.render p.settings x = .error fault) :
      Pressed p s .format { s.unshifted with format := s.format.next } (some fault)

variable {p : Profile} {s : Session} {k : Key}

/-! ### Evaluation -/

theorem evaluate_of_ok {x : Float} (hx : s.outcome = .ok x) : s.evaluate p = s.succeed p x := by
  rw [outcome] at hx
  rw [evaluate, hx]

theorem evaluate_of_error {failure : Failure} (hf : s.outcome = .error failure) :
    s.evaluate p = (if failure.fault.isRefusal then s else s.fail, .ok none) := by
  rw [outcome] at hf
  rw [evaluate, hf]

theorem succeed_of_ok {x : Float} {t : Text} (ht : s.format.render p.settings x = .ok t) :
    s.succeed p x = ({ s.stored x with
      result := t, valid := true, buffer := s.buffer.withFraction .idle }, .ok (some x)) := by
  simp only [succeed, ht]
  rfl

theorem succeed_of_error {x : Float} {fault : FormatFault}
    (ht : s.format.render p.settings x = .error fault) :
    s.succeed p x = (s.stored x, .error fault) := by
  simp only [succeed, ht]
  rfl

theorem pressed_evaluateThen (hk : k.evaluates = true) :
    Pressed p s k (s.unshifted.evaluateThen p k.account).1
      (s.unshifted.evaluateThen p k.account).2 := by
  rw [evaluateThen]
  cases hx : s.outcome with
  | ok x =>
      rw [evaluate_of_ok (s := s.unshifted) hx]
      cases ht : s.format.render p.settings x with
      | ok t =>
          rw [succeed_of_ok (s := s.unshifted) ht]
          exact .shown hk hx ht
      | error fault =>
          rw [succeed_of_error (s := s.unshifted) ht]
          exact .notShown hk hx ht
  | error failure =>
      rw [evaluate_of_error (s := s.unshifted) hx]
      cases hr : failure.fault.isRefusal with
      | true => exact .refused hk hx hr
      | false => exact .failed hk hx hr

/-! ### The next format -/

theorem cycleFormat_of_none (h : s.valid = true → s.lastValue = none) :
    s.cycleFormat p = done { s with format := s.format.next } := by
  cases hv : s.valid with
  | false => simp only [cycleFormat, hv]
  | true => simp only [cycleFormat, hv, h hv]

theorem cycleFormat_of_ok {x : Float} {t : Text} (hv : s.valid = true)
    (hx : s.lastValue = some x) (ht : s.format.next.render p.settings x = .ok t) :
    s.cycleFormat p = done { s with format := s.format.next, result := t } := by
  simp only [cycleFormat, hv, hx, ht]

theorem cycleFormat_of_error {x : Float} {fault : FormatFault} (hv : s.valid = true)
    (hx : s.lastValue = some x) (ht : s.format.next.render p.settings x = .error fault) :
    s.cycleFormat p = ({ s with format := s.format.next }, some fault) := by
  simp only [cycleFormat, hv, hx, ht]

theorem pressed_cycleFormat :
    Pressed p s .format (s.unshifted.cycleFormat p).1 (s.unshifted.cycleFormat p).2 := by
  by_cases hnone : s.valid = true → s.lastValue = none
  · rw [cycleFormat_of_none (s := s.unshifted) hnone]
    exact .switched hnone
  · obtain ⟨hv, hlast⟩ := Classical.not_imp.1 hnone
    obtain ⟨x, hx⟩ := Option.ne_none_iff_exists'.1 hlast
    cases ht : s.format.next.render p.settings x with
    | ok t =>
        rw [cycleFormat_of_ok (s := s.unshifted) hv hx ht]
        exact .reshown hv hx ht
    | error fault =>
        rw [cycleFormat_of_error (s := s.unshifted) hv hx ht]
        exact .notReshown hv hx ht

/-! ### Every key -/

/-- A press ends in one of the ways of `Pressed`. -/
theorem pressed_press (p : Profile) (s : Session) (k : Key) :
    Pressed p s k (s.press p k).1 (s.press p k).2 := by
  cases k with
  | move d => exact .moved d
  | delete => exact .deleted
  | sign => exact .signed
  | shift => exact .shifted
  | allClear => exact .cleared
  | memoryClear => exact .memoryCleared
  | equals => exact pressed_evaluateThen rfl
  | memoryAdd => exact pressed_evaluateThen rfl
  | memorySubtract => exact pressed_evaluateThen rfl
  | format => exact pressed_cycleFormat
  | _ => exact .typed rfl

/-! ### Runs -/

/-- The session after the keys of the given names, unless a press is stopped. -/
def run (p : Profile) (s : Session) : List Text → Except PressFault Session
  | [] => .ok s
  | name :: names =>
    match (s.pressNamed p name).2 with
    | none => run p (s.pressNamed p name).1 names
    | some fault => .error fault

theorem run_cons_of_none {name : Text} (h : (s.pressNamed p name).2 = none) (names : List Text) :
    s.run p (name :: names) = (s.pressNamed p name).1.run p names := by
  rw [run, h]

theorem exists_key_of_none {name : Text} (h : (s.pressNamed p name).2 = none) :
    ∃ k, Key.ofName? name = some k ∧ (s.pressNamed p name).1 = (s.press p k).1 ∧
      (s.press p k).2 = none := by
  unfold pressNamed at h ⊢
  cases hk : Key.ofName? name with
  | none =>
      rw [hk] at h
      cases h
  | some k =>
      rw [hk] at h
      exact ⟨k, rfl, rfl, Option.map_eq_none_iff.1 h⟩

end Session
end PocketCalculator
