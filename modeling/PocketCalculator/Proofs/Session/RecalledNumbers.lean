import PocketCalculator.Proofs.Buffer.WholeNumber
import PocketCalculator.Proofs.Number.FloorDivision
import PocketCalculator.Proofs.Session.Reached

/-! # Recalling a number and typing it

A memory is recalled in one go, and a number is typed one character at a time.  A single character
goes to an open slot near to the cursor, a longer number never does; so the two ways leave the same
expression and the same cursor only where the characters come to stand at the cursor as well
(`Buffer.TakesNumber`).  `Session.run_recall_iff` says so of all sessions and all memories that are
finite and not below zero, and `Session.run_recall_differs` shows the ways in which the two come
apart. -/

namespace PocketCalculator

/-- The plain text of a double that is not below zero has no sign: it is a number that begins with a
digit. -/
theorem plain_plainText {x : Float} (hx : x.isFinite = true) (hneg : ¬x < 0) :
    (∀ c ∈ plainText x, isPlainNumeralChar c = true) ∧
      (plainText x).head?.any isAsciiDigit = true := by
  obtain ⟨d, hd⟩ := Dyadic.exists_of_isFinite hx
  rw [double_neg_iff hd] at hneg
  rw [plainText, hd]
  dsimp only
  by_cases hm : d.mantissa = 0
  · rw [if_pos hm]
    have hzero : isPlainNumeralChar '0' = true ∧ isAsciiDigit '0' = true := by decide
    exact ⟨List.forall_mem_singleton.2 hzero.1, hzero.2⟩
  · rw [if_neg hm]
    have hc := Dyadic.canonical_of_ofFloat? hd
    have hpos := Nat.pos_of_ne_zero hm
    obtain ⟨body, hbody, hw⟩ := Decimal.exists_body
      (Decimal.coefficient_ne_zero_of_contains hc hpos (Dyadic.contains_shortest hc hpos))
    have hsign : d.shortest.negative = false := by
      rw [d.negative_shortest, Bool.eq_false_iff]
      exact fun hnegative => hneg ⟨hnegative, hm⟩
    rw [hsign] at hbody
    obtain ⟨c, rest, hcons⟩ := List.exists_cons_of_ne_nil hw.ne_nil
    have hfirst := hw.first c (by rw [hcons]; rfl)
    have htext : d.shortest.positional = body := hbody
    refine ⟨by rw [htext]; exact hw.plain, ?_⟩
    rw [htext, hcons]
    exact hfirst

namespace Session

variable {p : Profile} {s : Session}

/-! ### The keys -/

theorem run_recall (p : Profile) (s : Session) :
    ∃ s', s.run p ["MR".toList] = .ok s' ∧
      s'.buffer = s.buffer.insert (plainText s.registers.memory) := by
  have hkey : Key.ofName? "MR".toList = some .memoryRecall := by decide
  have hnone : (s.pressNamed p "MR".toList).2 = none := by
    rw [pressNamed, hkey]
    rfl
  refine ⟨(s.pressNamed p "MR".toList).1, run_cons_of_none hnone [], ?_⟩
  rw [pressNamed, hkey]
  rfl

theorem run_typed_plain (p : Profile) (s : Session) {n : Text}
    (hn : ∀ c ∈ n, isPlainNumeralChar c = true) :
    ∃ s', s.run p (n.map fun c => [c]) = .ok s' ∧ s'.buffer = s.buffer.insertEach n := by
  induction n generalizing s with
  | nil => exact ⟨s, rfl, rfl⟩
  | cons c n ih =>
      have hpress := pressNamed_char (p := p) (s := s)
        (mem_arithmeticChars_plain (hn c List.mem_cons_self))
      have hnone : (s.pressNamed p [c]).2 = none := by rw [hpress]
      rw [List.map_cons, run_cons_of_none hnone, hpress]
      exact ih _ fun x hx => hn x (List.mem_cons_of_mem c hx)

/-! ### The two ways -/

/-- Recalling a memory that is finite and not below zero leaves the same text and cursor as typing
its number, one key at a time, exactly where the expression takes the number at the cursor. -/
theorem run_recall_iff (hs : Reached s) (hx : s.registers.memory.isFinite = true)
    (hneg : ¬s.registers.memory < 0) :
    ∃ s₁ s₂, s.run p ["MR".toList] = .ok s₁ ∧
      s.run p ((plainText s.registers.memory).map fun c => [c]) = .ok s₂ ∧
      (s₁.buffer.SameView s₂.buffer ↔ s.buffer.TakesNumber (plainText s.registers.memory)) := by
  obtain ⟨hplain, hfirst⟩ := plain_plainText hx hneg
  obtain ⟨s₁, hrun₁, hbuffer₁⟩ := run_recall p s
  obtain ⟨s₂, hrun₂, hbuffer₂⟩ := run_typed_plain p s hplain
  refine ⟨s₁, s₂, hrun₁, hrun₂, ?_⟩
  rw [hbuffer₁, hbuffer₂]
  rcases hs.sound.keyed with hk | hinfinite | hzero
  · exact Buffer.sameView_insertEach_iff hk hs.sound.settled hplain hfirst
  · rw [hx] at hinfinite
    cases hinfinite
  · -- a cleared memory has one character only
    have htext : plainText s.registers.memory = ['0'] := by
      rw [hzero]
      decide
    rw [htext]
    exact iff_of_true ⟨rfl, rfl⟩ (.inl rfl)

/-- Between the parentheses of a sine the number comes to stand at the cursor either way. -/
theorem run_recall_iff_sine :
    let p : Profile := ⟨.standard, .ok Settings.defaults⟩
    let s : Session :=
      { start p with buffer := ⟨"sin()".toList, 4, .idle⟩, registers := ⟨some 12, 12⟩ }
    Reached s ∧ s.registers.memory.isFinite = true ∧ ¬s.registers.memory < 0 ∧
      s.buffer.TakesNumber (plainText s.registers.memory) ∧
      ∃ s₁ s₂, s.run p ["MR".toList] = .ok s₁ ∧
        s.run p ((plainText s.registers.memory).map fun c => [c]) = .ok s₂ ∧
        s₁.buffer.SameView s₂.buffer := by
  intro p s
  have hrun : (start p).run p (["1", "2", "M+", "AC", "sin", "left"].map String.toList) =
      .ok s := by decide +kernel
  have hs : Reached s := (Reached.start p).run hrun
  have hx : s.registers.memory.isFinite = true := by decide
  have hneg : ¬s.registers.memory < 0 := by decide
  have htext : plainText s.registers.memory = ['1', '2'] := by decide
  have htakes : s.buffer.TakesNumber (plainText s.registers.memory) := by
    rw [htext]
    refine .inr (.inr ⟨by decide, ?_, .apart (by decide)⟩)
    have hslot : (slots s.buffer.text).head? = some (.simple .circular ⟨0, 5⟩) := by
      decide
    exact .parentheses hslot (.inl rfl) rfl
  obtain ⟨s₁, s₂, hrecall, htyped, hiff⟩ := run_recall_iff (p := p) hs hx hneg
  exact ⟨hs, hx, hneg, htakes, s₁, s₂, hrecall, htyped, hiff.2 htakes⟩

/-- A number that is recalled behind an empty root leaves the root open, and one that is recalled
into a cleared expression keeps the zero in front of its point. -/
theorem run_recall_differs :
    let p : Profile := ⟨.standard, .ok Settings.defaults⟩
    let root := ["1", "2", "M+", "AC", "SHIFT", "square"].map String.toList
    let half := ["1", "÷", "2", "M+", "AC"].map String.toList
    let memory names := ((start p).run p names).toOption.map fun s =>
      (s.shift, s.registers.memory)
    let view names := ((start p).run p names).toOption.map fun s =>
      (s.buffer.text, s.buffer.cursor)
    (memory root = some (false, 12) ∧ plainText 12 = "12".toList ∧
      view (root ++ ["MR".toList]) = some ("√□12".toList, 4) ∧
      view (root ++ [['1'], ['2']]) = some ("√12".toList, 3)) ∧
    (memory half = some (false, 0.5) ∧ plainText 0.5 = "0.5".toList ∧
      view (half ++ ["MR".toList]) = some ("0.5".toList, 3) ∧
      view (half ++ [['0'], ['.'], ['5']]) = some (".5".toList, 2)) := by
  decide +kernel

end Session
end PocketCalculator
