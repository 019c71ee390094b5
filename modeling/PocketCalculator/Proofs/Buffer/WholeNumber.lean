import PocketCalculator.Proofs.Buffer.Digits

/-! # A number put in at once

Only a single character fills an open slot, so a longer number that is put in at once comes to stand
at the cursor whatever slots are near.  Its characters put in one at a time may go elsewhere, but
only the first two of them: behind a digit the place takes digits, or the digit has strayed already.
`Buffer.sameView_insertEach_iff` says that the two ways come to the same exactly where the buffer
`TakesNumber`. -/

namespace PocketCalculator.Buffer

variable {b b' : Buffer} {n : Text}

/-- The first two digits of a number come to stand at the cursor, or the number has only one.  The
zero of a cleared buffer gives way to the first digit, and a zero in front gives way once more. -/
def TakesNumber (b : Buffer) (n : Text) : Prop :=
  n.length = 1 ∨ b.text = clearedText ∧ n.head? ≠ some '0' ∨
    b.text ≠ clearedText ∧ b.TakesDigit ∧ (b.insert (n.take 1)).TakesDigit

/-! ### At once -/

theorem slots_of_cleared (hz : b.text = clearedText) : slotNear b.text b.cursor = false := by
  rw [hz]
  exact slotNear_of_arithmetic (by decide) _

theorem insert_of_cleared (hz : b.text = clearedText) (hne : n ≠ [])
    (hn : ∀ x ∈ n, isPlainNumeralChar x = true) (hzero : replacesZero n = true) :
    (b.insert n).text = n ∧ (b.insert n).cursor = n.length := by
  have hput : b.insert n = b.replace n n.length := by
    rw [insert, if_neg hne, slots_of_cleared hz, Bool.and_false, if_neg Bool.false_ne_true,
      insertPlain_plain hn, hz, hzero]
    rfl
  rw [hput]
  refine ⟨b.text_replace hne _, ?_⟩
  rw [replace, if_neg hne]
  exact snap_length n

theorem isFillValue_eq_false (hn : ∀ x ∈ n, isPlainNumeralChar x = true) (hlong : 1 < n.length) :
    isFillValue n = false := by
  have hans : n ≠ ansName := by
    rintro rfl
    exact absurd (hn 'a' (by decide)) (by decide)
  match n, hlong with
  | _ :: _ :: _, _ => simpa [isFillValue] using hans

/-- A longer number comes to stand at the cursor. -/
theorem insert_of_length (hk : Keyed b.text) (hs : b.Settled) (hz : b.text ≠ clearedText)
    (hn : ∀ x ∈ n, isPlainNumeralChar x = true) (hlong : 1 < n.length) :
    (b.insert n).text = b.before ++ n ++ b.after ∧
      (b.insert n).cursor = b.cursor + n.length := by
  have hne : n ≠ [] := by
    rintro rfl
    cases hlong
  have hput : b.insert n = b.splice b.before.length b.before.length n := by
    rw [insert, if_neg hne, isFillValue_eq_false hn hlong, Bool.false_and,
      if_neg Bool.false_ne_true, insertPlain_plain hn, decide_eq_false hz, Bool.false_and,
      if_neg Bool.false_ne_true, length_before hs]
  obtain ⟨-, htext, hcursor⟩ := splice_keyed b.before_append_after.symm (keyed_before hk hs)
    (keyed_plain hn) (keyed_after hk hs) hne
  rw [hput, htext, hcursor, List.length_append, length_before hs]
  exact ⟨rfl, rfl⟩

/-! ### One at a time -/

theorem insertEach_keyed (hk : Keyed b.text) (hs : b.Settled) {c : Char}
    (hc : isPlainNumeralChar c = true) : Keyed (b.insert [c]).text ∧ (b.insert [c]).Settled :=
  ⟨keyed_insert hk hs (mem_keyTexts_plain hc), hs.insert [c]⟩

/-- A place that takes digits has the digit in front of the cursor afterwards. -/
theorem TakesDigit.insert_parts (h : b.TakesDigit) (hk : Keyed b.text) (hs : b.Settled)
    (hz : b.text ≠ clearedText) {c : Char} (hc : isPlainNumeralChar c = true) :
    (b.insert [c]).before = b.before ++ [c] ∧ (b.insert [c]).after = b.after ∧
      (b.insert [c]).cursor = b.cursor + 1 := by
  obtain ⟨hbefore, htext, hcursor⟩ := splice_keyed b.before_append_after.symm (keyed_before hk hs)
    (keyed_plain (n := [c]) (by simpa using hc)) (keyed_after hk hs) (List.cons_ne_nil c [])
  rw [length_before hs, ← h.insert_eq hc hz] at hbefore htext hcursor
  refine ⟨hbefore, ?_, ?_⟩
  · rw [after, htext, hcursor, List.drop_left]
  · rw [hcursor, List.length_append, length_before hs, List.length_singleton]

/-- Behind a digit the characters come to stand at the cursor, one behind the other. -/
theorem Steady.insertEach (h : b.Steady) (hk : Keyed b.text) (hs : b.Settled)
    (hn : ∀ x ∈ n, isPlainNumeralChar x = true) :
    (b.insertEach n).text = b.before ++ n ++ b.after ∧
      (b.insertEach n).cursor = b.cursor + n.length := by
  induction n generalizing b with
  | nil =>
      rw [List.append_nil, b.before_append_after]
      exact ⟨rfl, rfl⟩
  | cons c n ih =>
      have hc := hn c List.mem_cons_self
      obtain ⟨hbefore, hafter, hcursor⟩ := h.takes.insert_parts hk hs h.uncleared hc
      obtain ⟨hk', hs'⟩ := insertEach_keyed hk hs hc
      obtain ⟨htext', hcursor'⟩ := ih (h.insert hk hc hs) hk' hs' fun x hx =>
        hn x (List.mem_cons_of_mem c hx)
      rw [hbefore, hafter] at htext'
      rw [hcursor] at hcursor'
      refine ⟨htext'.trans ?_, hcursor'.trans ?_⟩
      · rw [List.append_assoc b.before, List.singleton_append]
      · rw [List.length_cons]
        omega

/-! ### Both ways -/

/-- Two buffers have the same text and the same cursor. -/
def SameView (b b' : Buffer) : Prop :=
  b.text = b'.text ∧ b.cursor = b'.cursor

theorem count_number (hn : ∀ x ∈ n, isPlainNumeralChar x = true) (front back : Text) :
    (front ++ n ++ back).count blankSymbol = (front ++ back).count blankSymbol := by
  have hzero : n.count blankSymbol = 0 :=
    List.count_eq_zero.2 fun h => ne_blank_of_plain (hn _ h) rfl
  rw [List.count_append, List.count_append, List.count_append, hzero, Nat.add_zero]

/-- Digits that stray do not come back. -/
theorem Strays.not_sameView {b₀ : Buffer} (h : b.Strays b') (hk' : Keyed b'.text)
    (hs' : b'.Settled) (hn : ∀ x ∈ n, isPlainNumeralChar x = true)
    (hcount : b₀.text.count blankSymbol = b.text.count blankSymbol)
    (hcursor : b₀.cursor = b.cursor + 1 + n.length) : ¬SameView b₀ (b'.insertEach n) := by
  rintro ⟨htext, hsame⟩
  rcases h with hless | ⟨hsteady, hne⟩
  · have hle := (b'.insertEach_le hn).1
    rw [← htext, hcount] at hle
    omega
  · rw [(hsteady.insertEach hk' hs' hn).2] at hsame
    omega

section digits

variable {c d : Char} (hn : ∀ x ∈ c :: d :: n, isPlainNumeralChar x = true)
include hn

/-- In a cleared buffer every zero in front is lost but the last one. -/
theorem sameView_of_cleared (hz : b.text = clearedText) (hk : Keyed b.text) (hs : b.Settled)
    (hzero : replacesZero (c :: d :: n) = true) :
    SameView (b.insert (c :: d :: n)) (b.insertEach (c :: d :: n)) ↔ c ≠ '0' := by
  obtain ⟨hc, hrest⟩ := List.forall_mem_cons.1 hn
  have hd := hrest d List.mem_cons_self
  obtain ⟨htext, hcursor⟩ := insert_of_cleared hz (List.cons_ne_nil c _) hn hzero
  obtain ⟨htext₁, hcursor₁⟩ := insert_of_cleared hz (List.cons_ne_nil c []) (by simpa using hc)
    (replacesZero_plain hc)
  obtain ⟨hk₁, hs₁⟩ := insertEach_keyed hk hs hc
  have heach : b.insertEach (c :: d :: n) = (b.insert [c]).insertEach (d :: n) := rfl
  rw [SameView, htext, hcursor, heach]
  by_cases h0 : c = '0'
  · -- the second digit takes the place of the first one
    subst h0
    obtain ⟨htext₂, -⟩ := insert_of_cleared htext₁ (List.cons_ne_nil d []) (by simpa using hd)
      (replacesZero_plain hd)
    have hle := (((b.insert ['0']).insert [d]).insertEach_le (n := n)
      fun x hx => hrest x (List.mem_cons_of_mem d hx)).2
    rw [htext₂] at hle
    refine iff_of_false (fun h => ?_) (fun h => h rfl)
    have hlength := congrArg List.length h.1
    have heach₂ : (b.insert ['0']).insertEach (d :: n) =
      ((b.insert ['0']).insert [d]).insertEach n := rfl
    rw [heach₂] at hlength
    simp only [List.length_cons, List.length_nil] at hlength hle
    omega
  · have hbefore : (b.insert [c]).before = [c] ∧ (b.insert [c]).after = [] := by
      rw [before, after, htext₁, hcursor₁]
      exact ⟨rfl, rfl⟩
    have hsteady : (b.insert [c]).Steady := by
      refine ⟨.apart ?_, ?_, [], c, hbefore.1, hc⟩
      · rw [htext₁]
        exact slotNear_of_arithmetic
          (List.cons_subset.2 ⟨mem_arithmeticChars_plain hc, List.nil_subset _⟩) _
      · rw [htext₁]
        exact fun h => h0 (List.cons.inj h).1
    obtain ⟨htext', hcursor'⟩ := hsteady.insertEach hk₁ hs₁ hrest
    rw [htext', hcursor', hbefore.1, hbefore.2, hcursor₁]
    refine iff_of_true ⟨?_, ?_⟩ h0
    · simp
    · simp only [List.length_cons, List.length_nil]
      omega

/-- Elsewhere the first two digits decide. -/
theorem sameView_of_ne_cleared (hz : b.text ≠ clearedText) (hk : Keyed b.text) (hs : b.Settled) :
    SameView (b.insert (c :: d :: n)) (b.insertEach (c :: d :: n)) ↔
      b.TakesDigit ∧ (b.insert [c]).TakesDigit := by
  obtain ⟨hc, hrest⟩ := List.forall_mem_cons.1 hn
  obtain ⟨hd, hrest'⟩ := List.forall_mem_cons.1 hrest
  obtain ⟨htext, hcursor⟩ := insert_of_length hk hs hz hn (by simp)
  obtain ⟨hk₁, hs₁⟩ := insertEach_keyed hk hs hc
  obtain ⟨hk₂, hs₂⟩ := insertEach_keyed hk₁ hs₁ hd
  have hcount : (b.insert (c :: d :: n)).text.count blankSymbol = b.text.count blankSymbol := by
    rw [htext, count_number hn, b.before_append_after]
  by_cases h₁ : b.TakesDigit
  · obtain ⟨hbefore, hafter, hcursor₁⟩ := h₁.insert_parts hk hs hz hc
    have htext₁ : (b.insert [c]).text = b.before ++ [c] ++ b.after := by
      rw [← (b.insert [c]).before_append_after, hbefore, hafter]
    by_cases h₂ : (b.insert [c]).TakesDigit
    · have hlong : (b.insert [c]).text ≠ clearedText := by
        have hpos := List.length_pos_iff.2 hs.text_ne_nil
        rw [← b.before_append_after, List.length_append] at hpos
        rw [htext₁]
        exact ne_clearedText (by simp; omega)
      obtain ⟨htext', hcursor'⟩ :=
        Steady.insertEach ⟨h₂, hlong, b.before, c, hbefore, hc⟩ hk₁ hs₁ hrest
      refine iff_of_true ⟨?_, ?_⟩ ⟨h₁, h₂⟩
      · refine htext.trans (Eq.trans ?_ htext'.symm)
        rw [hbefore, hafter]
        simp
      · refine hcursor.trans (Eq.trans ?_ hcursor'.symm)
        simp only [hcursor₁, List.length_cons]
        omega
    · refine iff_of_false ?_ fun h => h₂ h.2
      refine (strays_insert hk₁ hd h₂).not_sameView hk₂ hs₂ hrest' ?_ ?_
      · rw [hcount, htext₁, count_number (by simpa using hc), b.before_append_after]
      · simp only [hcursor, hcursor₁, List.length_cons]
        omega
  · refine iff_of_false ?_ fun h => h₁ h.1
    refine (strays_insert hk hc h₁).not_sameView hk₁ hs₁ hrest hcount ?_
    simp only [hcursor, List.length_cons]
    omega

end digits

/-- A number that is put in at once leaves the same text and cursor as its characters put in one at
a time exactly where the buffer takes the number. -/
theorem sameView_insertEach_iff (hk : Keyed b.text) (hs : b.Settled)
    (hn : ∀ x ∈ n, isPlainNumeralChar x = true) (hfirst : n.head?.any isAsciiDigit = true) :
    SameView (b.insert n) (b.insertEach n) ↔ b.TakesNumber n := by
  match n with
  | [] => cases hfirst
  | [c] => exact iff_of_true ⟨rfl, rfl⟩ (.inl rfl)
  | c :: d :: n =>
      have hlong : ¬(c :: d :: n).length = 1 := by simp
      have hzero : replacesZero (c :: d :: n) = true := by
        have hdigit := isDecimalDigit_of_isAsciiDigit hfirst
        rw [replacesZero, List.head?_cons, Option.any_some, hdigit]
        rfl
      have htake : (c :: d :: n).take 1 = [c] := rfl
      rw [TakesNumber, or_iff_right hlong, htake]
      by_cases hz : b.text = clearedText
      · rw [sameView_of_cleared hn hz hk hs hzero]
        simp [hz]
      · rw [sameView_of_ne_cleared hn hz hk hs]
        simp [hz]

end PocketCalculator.Buffer
