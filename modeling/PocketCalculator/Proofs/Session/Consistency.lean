import PocketCalculator.Proofs.Session.Presses

/-! # The shown result

A result that is shown as valid is that of Ans, written in the current format; where none is valid,
no value is remembered, and what is shown is nothing or the text of an error.  Every press that is
not stopped keeps this (`current_of_pressed`), so every run from a new session does (`run_current`).
-/

namespace PocketCalculator.Session

/-- The shown result belongs to Ans and to the current format. -/
structure Current (p : Profile) (s : Session) : Prop where
  of_valid : s.valid = true → ∃ x, s.registers.ans = some x ∧ s.lastValue = some x ∧
    s.format.render p.settings x = .ok s.result
  of_not_valid : s.valid = false → s.lastValue = none ∧ (s.result = [] ∨ s.result = errorText)

variable {p : Profile} {s s' : Session} {k : Key}

/-! ### One press -/

theorem current_start (p : Profile) : Current p (start p) where
  of_valid h := by cases h
  of_not_valid _ := ⟨rfl, .inl rfl⟩

theorem current_reset (p : Profile) (s : Session) : Current p (s.reset p) where
  of_valid h := by cases h
  of_not_valid _ := ⟨rfl, .inl rfl⟩

theorem current_fail (p : Profile) (s : Session) : Current p s.fail where
  of_valid h := by cases h
  of_not_valid _ := ⟨rfl, .inr rfl⟩

/-- Only these fields matter. -/
theorem Current.of_eq (hs : Current p s) (ha : s'.registers.ans = s.registers.ans)
    (hl : s'.lastValue = s.lastValue) (hr : s'.result = s.result) (hv : s'.valid = s.valid)
    (hf : s.valid = true → s'.format = s.format) : Current p s' where
  of_valid h := by
    rw [hv] at h
    obtain ⟨x, hx, hy, ht⟩ := hs.of_valid h
    rw [ha, hl, hr, hf h]
    exact ⟨x, hx, hy, ht⟩
  of_not_valid h := by
    rw [hv] at h
    rw [hl, hr]
    exact hs.of_not_valid h

theorem current_of_pressed (hs : Current p s) (h : Pressed p s k s' none) : Current p s' := by
  cases h with
  | cleared => exact current_reset p s
  | failed => exact current_fail p _
  | @shown _ x t hk hx ht =>
      exact ⟨fun _ => ⟨x, k.ans_account _ _, rfl, ht⟩, fun h => by cases h⟩
  | switched hv =>
      have hn : s.valid = false := by
        cases h : s.valid with
        | false => rfl
        | true =>
            obtain ⟨x, -, hx, -⟩ := hs.of_valid h
            cases (hv h).symm.trans hx
      exact hs.of_eq rfl rfl rfl rfl fun h => by cases hn.symm.trans h
  | @reshown x t hv hx ht =>
      obtain ⟨y, ha, hy, -⟩ := hs.of_valid hv
      cases hx.symm.trans hy
      exact ⟨fun _ => ⟨x, ha, hx, ht⟩, fun h => by cases hv.symm.trans h⟩
  | _ => exact hs.of_eq rfl rfl rfl rfl fun _ => rfl

/-! ### Runs -/

theorem exists_render_of_pressed {fault : FormatFault} (h : Pressed p s k s' (some fault)) :
    ∃ (format : DisplayFormat) (x : Float), format.render p.settings x = .error fault := by
  cases h with
  | notShown hk hx ht => exact ⟨_, _, ht⟩
  | notReshown hv hx ht => exact ⟨_, _, ht⟩

/-- What a run from a new session comes to.  It ends early only at a name that no key has, or at a
value that the settings do not let a format show. -/
def Concluded (p : Profile) (names : List Text) : Except PressFault Session → Prop
  | .ok s => Current p s
  | .error (.unknownKey name) => name ∈ names ∧ Key.ofName? name = none
  | .error (.display fault) =>
    ∃ (format : DisplayFormat) (x : Float), format.render p.settings x = .error fault

theorem Concluded.cons {names : List Text} {r : Except PressFault Session} (name : Text)
    (h : Concluded p names r) : Concluded p (name :: names) r := by
  cases r with
  | ok s => exact h
  | error fault =>
      cases fault with
      | unknownKey n => exact ⟨List.mem_cons_of_mem _ h.1, h.2⟩
      | display fault => exact h

theorem concluded_run (hs : Current p s) (names : List Text) :
    Concluded p names (s.run p names) := by
  induction names generalizing s with
  | nil => exact hs
  | cons name names ih =>
      cases hk : Key.ofName? name with
      | none =>
          have hn : s.run p (name :: names) = .error (.unknownKey name) := by
            simp only [run, pressNamed, hk]
          rw [hn]
          exact ⟨List.mem_cons_self, hk⟩
      | some k =>
          have hp := pressed_press p s k
          cases hf : (s.press p k).2 with
          | none =>
              rw [hf] at hp
              have hn : s.run p (name :: names) = (s.press p k).1.run p names := by
                simp only [run, pressNamed, hk, hf, Option.map_none]
              rw [hn]
              exact (ih (current_of_pressed hs hp)).cons name
          | some fault =>
              rw [hf] at hp
              have hn : s.run p (name :: names) = .error (.display fault) := by
                simp only [run, pressNamed, hk, hf, Option.map_some]
              rw [hn]
              exact exists_render_of_pressed hp

theorem run_current (p : Profile) (names : List Text) :
    Concluded p names ((start p).run p names) :=
  concluded_run (current_start p) names

example :
    let p : Profile := ⟨.standard, .ok Settings.defaults⟩
    let keys := ["6", "×", "7", "M+", "FMT"].map String.toList
    ((start p).run p keys).toOption.map (fun s => (s.valid, s.result)) =
      some (true, "42.0000".toList) := by
  decide +kernel

end PocketCalculator.Session
