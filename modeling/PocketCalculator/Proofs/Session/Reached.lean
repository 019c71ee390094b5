import PocketCalculator.Proofs.Buffer.Characters
import PocketCalculator.Proofs.Session.Recall

/-! # The sessions of a calculator

A calculator is used by pressing keys, by evaluating and by resetting it; a call that is stopped
leaves a session behind in which it is used on.  `Reached` are the sessions that such calls lead to
from a new one, and `Sound` is what holds of all of them (`Reached.sound`).

The keys put only whole units into an expression, with one exception: a memory that is not finite is
recalled as letters.  Such a memory stays as it is until it is cleared, because an expression with
these letters has no value that could be added.  So a memory that is finite, and not zero, goes with
an expression that is made of key units. -/

namespace PocketCalculator

/-! ### What the keys type -/

theorem Key.mem_keyTexts {shift : Bool} {k : Key} {t : Text} (h : k.insertion? shift = some t) :
    t ∈ keyTexts := by
  have hdigits : ∀ d : Fin 10, [digitChar d] ∈ keyTexts := by decide
  cases k with
  | digit d =>
      cases h
      exact hdigits d
  | function f =>
      cases h
      refine List.mem_append_right _ (List.mem_cons_of_mem _ ?_)
      exact List.mem_map_of_mem (f.template shift).mem_all
  | point | plus | minus | times | divide | opening | closing | percent | ans =>
      cases h
      decide
  | _ => cases h

theorem plainText_subset (x : Float) : plainText x ⊆ calculatorChars := by
  cases hx : x.isFinite with
  | true =>
      obtain ⟨n, -, ht, hbody, -⟩ := exists_numeral_of_isFinite hx
      rw [← ht]
      intro c hc
      rcases Numeral.eq_or_mem_of_mem_text hc with rfl | hc
      · exact arithmeticChars_subset (by decide)
      · exact arithmeticChars_subset (hbody hc)
  | false => exact subset_of_mem_specialTexts (plainText_of_not_isFinite hx)

theorem keyed_plainText {x : Float} (hx : x.isFinite = true) : Keyed (plainText x) := by
  obtain ⟨n, -, ht, -⟩ := exists_numeral_of_isFinite hx
  exact (ht ▸ n.spelled).keyed (plainText_subset x)

theorem Buffer.keyed_insert_plainText {b : Buffer} (hk : Keyed b.text) (hs : b.Settled) {x : Float}
    (hx : x.isFinite = true) : Keyed (b.insert (plainText x)).text := by
  have hinserted : b.inserted (plainText x) = plainText x := by
    rw [inserted, adoptsOperand, ofText?_plainText]
    rfl
  have hkeyed := keyed_plainText hx
  refine keyed_insert_of_keyed hk hs (plainText_ne_nil x) hkeyed ?_
  rw [hinserted]
  exact ⟨plainText_ne_nil x, hkeyed⟩

namespace Session

variable {p : Profile} {s s' : Session} {k : Key} {fault : Option FormatFault}

/-! ### What holds of a session -/

/-- What holds of the expression and the memory of a calculator in use. -/
structure Sound (s : Session) : Prop where
  settled : s.buffer.Settled
  chars : s.buffer.text ⊆ calculatorChars
  /-- Letters stand in the expression only for a memory that is not finite or has been cleared. -/
  keyed : Keyed s.buffer.text ∨ s.registers.memory.isFinite = false ∨ s.registers.memory = 0

theorem Sound.keyed_of_outcome (hs : Sound s) {x : Float} (hx : s.outcome = .ok x) :
    Keyed s.buffer.text := by
  obtain ⟨ts, hts, -⟩ := Expr.exists_of_bind_eq_ok (treeValue_of_evaluate hx).2
  exact (Token.exists_ofChars_iff.1 ⟨ts, hts⟩).keyed hs.chars

theorem sound_cleared (hb : s.buffer = .cleared) : Sound s := by
  have hkeyed : Keyed s.buffer.text := by
    rw [hb]
    exact Buffer.keyed_cleared
  refine ⟨?_, ?_, .inl hkeyed⟩
  · rw [hb]
    exact Buffer.settled_cleared
  · rw [hb]
    exact subset_of_mem_keyTexts (t := clearedText) (by decide)

theorem Sound.of_eq (hs : Sound s) (ht : s'.buffer.text = s.buffer.text)
    (hc : s'.buffer.cursor = s.buffer.cursor)
    (hm : s'.registers.memory = s.registers.memory ∨ Keyed s.buffer.text) : Sound s' := by
  obtain ⟨⟨hne, hmem⟩, hchars, hkeyed⟩ := hs
  refine ⟨⟨?_, ?_⟩, ?_, ?_⟩
  · rwa [ht]
  · rwa [ht, hc]
  · rwa [ht]
  · rw [ht]
    rcases hm with hm | hk
    · rwa [hm]
    · exact .inl hk

/-- An edit by the keys keeps the memory. -/
theorem Sound.edited (hs : Sound s) {e : Edit} (hb : s'.buffer = s.buffer.edited e)
    (hm : s'.registers.memory = s.registers.memory) (he : e.text ⊆ calculatorChars)
    (hk : Keyed s.buffer.text → Keyed (s.buffer.edited e).text ∨
      s.registers.memory.isFinite = false) : Sound s' := by
  refine ⟨?_, ?_, ?_⟩
  · rw [hb]
    exact Buffer.settled_edited hs.settled e
  · rw [hb]
    exact Buffer.edited_subset hs.chars he
  · rw [hb, hm]
    rcases hs.keyed with hkeyed | hmemory
    · exact (hk hkeyed).imp_right .inl
    · exact .inr hmemory

/-! ### One call -/

theorem sound_of_pressed (hs : Sound s) (h : Pressed p s k s' fault) : Sound s' := by
  have hedit {e : Edit} (he : e.IsKeyed) (hk : Keyed s.buffer.text) :
      Keyed (s.buffer.edited e).text ∨ s.registers.memory.isFinite = false :=
    .inl (Buffer.keyed_edited hk hs.settled he)
  cases h with
  | @typed k t ht =>
      have htext : t ⊆ calculatorChars ∧ (Keyed s.buffer.text →
          Keyed (s.buffer.insert t).text ∨ s.registers.memory.isFinite = false) := by
        by_cases hrecall : k = .memoryRecall
        · subst hrecall
          cases ht
          refine ⟨plainText_subset _, fun hk => ?_⟩
          cases hfinite : s.registers.memory.isFinite with
          | true => exact .inl (Buffer.keyed_insert_plainText hk hs.settled hfinite)
          | false => exact .inr rfl
        · have hinsertion : k.insertion? s.shift = some t := by
            cases k <;> first | exact ht | exact absurd rfl hrecall
          have hmem := Key.mem_keyTexts hinsertion
          exact ⟨subset_of_mem_keyTexts hmem, hedit (e := .insert t) hmem⟩
      exact hs.edited (e := .insert t) rfl rfl htext.1 htext.2
  | moved d => exact hs.edited (e := .move d) rfl rfl (List.nil_subset _) (hedit trivial)
  | deleted => exact hs.edited (e := .delete) rfl rfl (List.nil_subset _) (hedit trivial)
  | signed => exact hs.edited (e := .toggleSign) rfl rfl (List.nil_subset _) (hedit trivial)
  | cleared => exact sound_cleared rfl
  | memoryCleared => exact ⟨hs.settled, hs.chars, .inr (.inr rfl)⟩
  | shown hk hx => exact hs.of_eq rfl rfl (.inr (hs.keyed_of_outcome hx))
  | _ => exact hs.of_eq rfl rfl (.inl rfl)

theorem sound_pressNamed (hs : Sound s) (p : Profile) (name : Text) :
    Sound (s.pressNamed p name).1 := by
  unfold pressNamed
  cases Key.ofName? name with
  | none => exact hs.of_eq rfl rfl (.inl rfl)
  | some k => exact sound_of_pressed hs (pressed_press p s k)

theorem sound_evaluate (hs : Sound s) (p : Profile) : Sound (s.evaluate p).1 := by
  cases hx : s.outcome with
  | ok x =>
      rw [evaluate_of_ok hx]
      cases ht : s.format.render p.settings x with
      | ok t =>
          rw [succeed_of_ok ht]
          exact hs.of_eq rfl rfl (.inl rfl)
      | error fault =>
          rw [succeed_of_error ht]
          exact hs.of_eq rfl rfl (.inl rfl)
  | error failure =>
      rw [evaluate_of_error hx]
      dsimp only
      split
      · exact hs
      · exact hs.of_eq rfl rfl (.inl rfl)

/-! ### Every session -/

/-- The sessions that the calls of a calculator lead to from a new one, those included that a
stopped call leaves behind.  Every call reads the settings and the format after a reset anew. -/
inductive Reached : Session → Prop where
  | start (p : Profile) : Reached (start p)
  | pressed {s : Session} (h : Reached s) (p : Profile) (name : Text) : Reached (s.pressNamed p name).1
  | evaluated {s : Session} (h : Reached s) (p : Profile) : Reached (s.evaluate p).1
  | reset {s : Session} (h : Reached s) (p : Profile) : Reached (s.reset p)

theorem Reached.sound (h : Reached s) : Sound s := by
  induction h with
  | start p => exact sound_cleared rfl
  | pressed h p name ih => exact sound_pressNamed ih p name
  | evaluated h p ih => exact sound_evaluate ih p
  | reset h p ih => exact sound_cleared rfl

/-- A run leads to a session that is reached. -/
theorem Reached.run (h : Reached s) {names : List Text} (hrun : s.run p names = .ok s') :
    Reached s' := by
  induction names generalizing s with
  | nil =>
      cases hrun
      exact h
  | cons name names ih =>
      cases hname : (s.pressNamed p name).2 with
      | none =>
          rw [run_cons_of_none hname] at hrun
          exact ih (h.pressed p name) hrun
      | some fault =>
          rw [Session.run, hname] at hrun
          cases hrun

end Session
end PocketCalculator
