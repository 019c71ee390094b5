import PocketCalculator.Proofs.Buffer.Deletion
import Mathlib.Logic.Function.Iterate

/-! # Deleting until nothing is left

A deletion need not make a text shorter: `√5` becomes `√□`, and an operand may give its place to a
blank.  What it always makes smaller is the weight of the text in front of the cursor, where a blank
weighs one and every other character two (`Buffer.Deletes.weight_lt`).  A weight is at most twice
the length of its text, so this bounds how often a deletion changes anything.

`Buffer.exhausted_iff` says that nothing is changed where the cursor stands at the beginning or the
buffer is cleared, and nowhere else, and `Buffer.delete_exhausts` that every buffer comes to this
point; from the end of its text it comes to the cleared one. -/

namespace PocketCalculator

/-! ### Weights -/

/-- How much there is to delete in a text: a blank counts once, and every other character twice,
since it may become a blank first. -/
def weight (t : Text) : Nat :=
  t.length + t.countP (· ≠ blankSymbol)

theorem weight_append (t u : Text) : weight (t ++ u) = weight t + weight u := by
  rw [weight, weight, weight, List.length_append, List.countP_append]
  omega

theorem length_le_weight (t : Text) : t.length ≤ weight t :=
  Nat.le_add_right _ _

theorem weight_le (t : Text) : weight t ≤ 2 * t.length := by
  have hcount := List.countP_le_length (p := (· ≠ blankSymbol)) (l := t)
  rw [weight]
  omega

theorem weight_pos {t : Text} (h : t ≠ []) : 0 < weight t :=
  (List.length_pos_iff.2 h).trans_le (length_le_weight t)

theorem weight_le_of_isPrefix {t u : Text} (h : t <+: u) : weight t ≤ weight u := by
  obtain ⟨rest, rfl⟩ := h
  rw [weight_append]
  exact Nat.le_add_right _ _

theorem weight_of_blank_not_mem {t : Text} (h : blankSymbol ∉ t) : weight t = 2 * t.length := by
  have hcount : t.countP (· ≠ blankSymbol) = t.length := by
    refine List.countP_eq_length.2 fun c hc => decide_eq_true ?_
    rintro rfl
    exact h hc
  rw [weight, hcount]
  omega

theorem one_lt_weight_of_mem_units {t u : Text} (h : u ∈ units t) (hu : u ≠ [blankSymbol]) :
    1 < weight u := by
  have key : ∀ g ∈ Head.all, 1 < weight g.text := by decide
  fun_induction units t with
  | case1 => exact absurd h List.not_mem_nil
  | case2 c rest head rest' hread ih =>
      rcases List.mem_cons.1 h with rfl | h
      · exact Head.forall_head key head
      · exact ih h
  | case3 c rest hread ih =>
      rcases List.mem_cons.1 h with rfl | h
      · have hblank : blankSymbol ∉ [c] := fun hc => hu (by rw [List.mem_singleton.1 hc])
        rw [weight_of_blank_not_mem hblank]
        exact Nat.lt_succ_self 1
      · exact ih h

/-! ### Templates -/

theorem FillsBlank.weight_lt {o : Text} (h : FillsBlank o) : weight [blankSymbol] < weight o := by
  rw [weight_of_blank_not_mem h.blank_not_mem]
  have hpos := List.length_pos_iff.2 h.ne_nil
  show 1 < 2 * o.length
  omega

theorem IsHalf.weight_lt {half : Text} (h : IsHalf half) (hb : half ≠ [blankSymbol]) :
    weight [blankSymbol] < weight half := by
  cases h with
  | blank => exact absurd rfl hb
  | ans => exact FillsBlank.ans.weight_lt
  | number hne hrun => exact (FillsBlank.number hne hrun).weight_lt

/-- A filled template weighs more than its empty form. -/
theorem Fills.weight_lt {template : Template} {back : Text} (h : Fills template back)
    (hne : back ≠ template.text) : weight template.text < weight back := by
  have hmarked {symbol o : Text} (ho : FillsBlank o) :
      weight (symbol ++ [blankSymbol]) < weight (symbol ++ o) := by
    rw [weight_append, weight_append]
    exact Nat.add_lt_add_left ho.weight_lt _
  have hsuffixed {symbol o : Text} (ho : FillsBlank o) :
      weight ([blankSymbol] ++ symbol) < weight (o ++ symbol) := by
    rw [weight_append, weight_append]
    exact Nat.add_lt_add_right ho.weight_lt _
  cases h with
  | @circular f argument hargument hparens =>
      have htext : f.text ++ ['(', ')'] = f.text ++ ['('] ++ [')'] := by simp
      rw [Template.text, htext, weight_append _ [')'], weight_append _ [')'],
        weight_append _ argument]
      have hpos := weight_pos hargument
      omega
  | root ho => exact @hmarked [rootSymbol] _ ho
  | marker m ho => exact hmarked ho
  | square ho => exact hsuffixed ho
  | cube ho => exact hsuffixed ho
  | reciprocal ho => exact hsuffixed ho
  | factorial ho => exact hsuffixed ho
  | @fraction numerator denominator hn hd =>
      have hle {half : Text} (hhalf : IsHalf half) : weight [blankSymbol] ≤ weight half := by
        by_cases hb : half = [blankSymbol]
        · rw [hb]
        · exact (hhalf.weight_lt hb).le
      have htext : Template.fraction.text = [blankSymbol] ++ ['/'] ++ [blankSymbol] := rfl
      rw [htext, weight_append, weight_append, weight_append, weight_append]
      by_cases hb : numerator = [blankSymbol]
      · have hlt := hd.weight_lt fun hb' => hne (by rw [hb, hb']; rfl)
        have hle := hle hn
        omega
      · have hlt := hn.weight_lt hb
        have hle := hle hd
        omega

namespace Buffer

variable {b c : Buffer} {front back : Text}

/-! ### One deletion -/

theorem TakesUnit.weight_lt {remaining unit : Text} (h : b.TakesUnit remaining unit) :
    weight remaining < weight b.before := by
  rw [h.before_eq, weight_append]
  exact Nat.lt_add_of_pos_right (weight_pos (ne_nil_of_mem_units h.mem_units))

/-- A deletion leaves less to delete in front of the cursor. -/
theorem Deletes.weight_lt (h : b.Deletes front back) : weight front < weight b.before := by
  have hinner := weight_le_of_isPrefix (isPrefix_withoutFinalBreak b.before)
  cases h with
  | filled hfilled =>
      obtain ⟨front, back, ht, rfl, hfills, hne⟩ := Filled.exists_inner_of_before? hfilled
      have hlt := hfills.weight_lt hne
      obtain ⟨-, htake, -⟩ := take_before ht hfills.ne_nil
      rw [ht, weight_append] at hinner
      rw [htake, weight_append]
      omega
  | whole hwhole =>
      cases hwhole with
      | template hfilled hempty =>
          obtain ⟨front, template, ht, rfl⟩ := exists_inner_of_emptyTemplateBefore? hempty
          have hpos := weight_pos template.text_ne_nil
          obtain ⟨-, htake, -⟩ := take_before ht template.text_ne_nil
          rw [ht, weight_append] at hinner
          rw [htake]
          omega
      | slot hunit hcloser => exact hunit.weight_lt
  | operand hunit hblank hcloser hvalue =>
      rw [hunit.before_eq, weight_append, weight_append]
      exact Nat.add_lt_add_left (one_lt_weight_of_mem_units hunit.mem_units hblank) _
  | unit hunit hcloser => exact hunit.weight_lt

/-- The cursor comes to stand behind `front` or, where a head is joined there, in front of that
head. -/
theorem isPrefix_before_replace (b : Buffer) (h : front ++ back ≠ []) :
    (b.replace (front ++ back) front.length).before <+: front := by
  have hsnap : snap (front ++ back) front.length ≤ front.length := by
    simpa using snap_le (front ++ back) front.length
  rw [replace, if_neg h]
  show (front ++ back).take _ <+: front
  rw [List.take_append_of_le_length hsnap]
  exact List.take_prefix _ _

/-- Nothing is left to delete: the cursor stands at the beginning, or the buffer is cleared. -/
def Exhausted (b : Buffer) : Prop :=
  b.cursor = 0 ∨ b.text = clearedText ∧ b.cursor = 1

theorem Exhausted.of_eq (h : b.Exhausted) (htext : c.text = b.text)
    (hcursor : c.cursor = b.cursor) : c.Exhausted := by
  rw [Exhausted, htext, hcursor]
  exact h

theorem before_ne_nil (hs : b.Settled) (h : ¬b.Exhausted) : b.before ≠ [] := by
  intro hnil
  have hlength := length_before hs
  rw [hnil] at hlength
  exact h (.inl hlength.symm)

theorem exhausted_delete_or (hs : b.Settled) (h : ¬b.Exhausted) :
    b.delete.Exhausted ∨ weight b.delete.before < weight b.before := by
  obtain ⟨front, back, hdeletes⟩ := exists_deletes (before_ne_nil hs h)
  obtain ⟨e, hdelete⟩ := hdeletes.delete_eq
  rw [hdelete]
  by_cases hne : front ++ back = []
  · rw [replace, if_pos hne]
    exact .inl (.inr ⟨rfl, rfl⟩)
  · exact .inr ((weight_le_of_isPrefix (b.isPrefix_before_replace hne)).trans_lt hdeletes.weight_lt)

theorem Exhausted.delete_eq (h : b.Exhausted) :
    b.delete.text = b.text ∧ b.delete.cursor = b.cursor := by
  rcases h with h | ⟨htext, hcursor⟩
  · have hbefore : b.before = [] := by rw [before, h, List.take_zero]
    rw [delete_of_before hbefore]
    exact ⟨rfl, rfl⟩
  · obtain ⟨text, cursor, ⟨_ | _, _ | _⟩⟩ := b
    all_goals
      cases htext
      cases hcursor
      decide +kernel

/-- A deletion changes neither the text nor the cursor where nothing is left to delete, and only
there. -/
theorem exhausted_iff (hs : b.Settled) :
    b.Exhausted ↔ b.delete.text = b.text ∧ b.delete.cursor = b.cursor := by
  refine ⟨Exhausted.delete_eq, fun ⟨htext, hcursor⟩ => ?_⟩
  by_contra h
  rcases exhausted_delete_or hs h with hdelete | hlt
  · exact h (hdelete.of_eq htext.symm hcursor.symm)
  · rw [before, before, htext, hcursor] at hlt
    exact Nat.lt_irrefl _ hlt

theorem Deletes.back_eq_nil (h : b.Deletes front back) (hafter : b.after = []) : back = [] := by
  cases h with
  | filled | operand | unit => exact hafter
  | whole hwhole =>
      cases hwhole with
      | template => exact hafter
      | slot => rw [hafter, List.drop_nil]

theorem cursor_delete_of_end (h : b.cursor = b.text.length) :
    b.delete.cursor = b.delete.text.length := by
  by_cases hbefore : b.before = []
  · rwa [delete_of_before hbefore]
  · have hafter : b.after = [] := by rw [after, h, List.drop_length]
    obtain ⟨front, back, hdeletes⟩ := exists_deletes hbefore
    obtain ⟨e, hdelete⟩ := hdeletes.delete_eq
    rw [hdelete, hdeletes.back_eq_nil hafter, List.append_nil, replace]
    split
    · rfl
    · exact snap_length front

/-! ### Deletion after deletion -/

theorem settled_iterate_delete (hs : b.Settled) (n : Nat) : (delete^[n] b).Settled := by
  induction n generalizing b with
  | zero => exact hs
  | succ n ih => exact ih hs.delete

theorem cursor_iterate_delete_of_end (h : b.cursor = b.text.length) (n : Nat) :
    (delete^[n] b).cursor = (delete^[n] b).text.length := by
  induction n generalizing b with
  | zero => exact h
  | succ n ih => exact ih (cursor_delete_of_end h)

theorem exhausted_iterate_delete (h : b.Exhausted) (n : Nat) : (delete^[n] b).Exhausted := by
  induction n generalizing b with
  | zero => exact h
  | succ n ih =>
      obtain ⟨htext, hcursor⟩ := h.delete_eq
      exact ih (h.of_eq htext hcursor)

/-- As many deletions as the text in front of the cursor weighs leave nothing to delete, and until
then there is something. -/
theorem exists_exhausted (hs : b.Settled) : ∃ k ≤ weight b.before,
    (delete^[k] b).Exhausted ∧ ∀ n < k, ¬(delete^[n] b).Exhausted := by
  induction hw : weight b.before using Nat.strong_induction_on generalizing b with
  | _ w ih =>
      by_cases h : b.Exhausted
      · exact ⟨0, Nat.zero_le _, h, fun n hn => absurd hn (Nat.not_lt_zero n)⟩
      · -- the first deletion, and those behind it
        obtain ⟨k, hk, hlast, hfirst⟩ : ∃ k < w, (delete^[k] b.delete).Exhausted ∧
            ∀ n < k, ¬(delete^[n] b.delete).Exhausted := by
          by_cases hdelete : b.delete.Exhausted
          · have hpos := weight_pos (before_ne_nil hs h)
            exact ⟨0, hw ▸ hpos, hdelete, fun n hn => absurd hn (Nat.not_lt_zero n)⟩
          · have hlt := (exhausted_delete_or hs h).resolve_left hdelete
            rw [hw] at hlt
            obtain ⟨k, hk, hall⟩ := ih _ hlt hs.delete rfl
            exact ⟨k, hk.trans_lt hlt, hall⟩
        refine ⟨k + 1, hk, hlast, fun n hn => ?_⟩
        cases n with
        | zero => exact h
        | succ n => exact hfirst n (Nat.lt_of_succ_lt_succ hn)

/-- However often one deletes, at most twice as many deletions change the text or the cursor as the
text has characters: all up to one of them, and none from then on.  At last the cursor stands at the
beginning or the buffer is cleared, and it is cleared when the cursor was at the end. -/
theorem delete_exhausts (hs : b.Settled) : ∃ k ≤ 2 * b.text.length,
    (∀ n < k, (delete^[n + 1] b).text ≠ (delete^[n] b).text ∨
      (delete^[n + 1] b).cursor ≠ (delete^[n] b).cursor) ∧
    ∀ n, k ≤ n → (delete^[n + 1] b).text = (delete^[n] b).text ∧
      (delete^[n + 1] b).cursor = (delete^[n] b).cursor ∧
      ((delete^[n] b).cursor = 0 ∨
        (delete^[n] b).text = clearedText ∧ (delete^[n] b).cursor = 1) ∧
      (b.cursor = b.text.length →
        (delete^[n] b).text = clearedText ∧ (delete^[n] b).cursor = 1) := by
  obtain ⟨k, hk, hlast, hfirst⟩ := exists_exhausted hs
  have hbound : weight b.before ≤ 2 * b.text.length :=
    (weight_le_of_isPrefix (List.take_prefix _ _)).trans (weight_le b.text)
  refine ⟨k, hk.trans hbound, fun n hn => ?_, fun n hn => ?_⟩
  · have hnot := hfirst n hn
    rw [exhausted_iff (settled_iterate_delete hs n), not_and_or] at hnot
    rwa [Function.iterate_succ_apply']
  · obtain ⟨m, rfl⟩ := Nat.exists_eq_add_of_le' hn
    have hexhausted : (delete^[m + k] b).Exhausted := by
      rw [Function.iterate_add_apply]
      exact exhausted_iterate_delete hlast m
    obtain ⟨htext, hcursor⟩ := hexhausted.delete_eq
    rw [Function.iterate_succ_apply']
    refine ⟨htext, hcursor, hexhausted, fun hend => hexhausted.resolve_left fun hzero => ?_⟩
    have hlength := cursor_iterate_delete_of_end hend (m + k)
    rw [hzero] at hlength
    exact (settled_iterate_delete hs (m + k)).text_ne_nil (List.length_eq_zero_iff.1 hlength.symm)

/-- A letter and a line feed, which no key inserts, go as well; the square behind the cursor first
gets its blank back. -/
theorem delete_exhausts_line :
    let b : Buffer := ⟨"√9+x\n3²".toList, 6, .idle⟩
    b.Settled ∧ ∃ k ≤ 14, ∀ n, k ≤ n → (delete^[n + 1] b).text = (delete^[n] b).text ∧
      ((delete^[n] b).cursor = 0 ∨
        (delete^[n] b).text = clearedText ∧ (delete^[n] b).cursor = 1) := by
  intro b
  have hs : b.Settled := ⟨List.cons_ne_nil _ _, by decide +kernel⟩
  obtain ⟨k, hk, -, hlast⟩ := delete_exhausts hs
  exact ⟨hs, k, hk, fun n hn => ⟨(hlast n hn).1, (hlast n hn).2.2.1⟩⟩

end Buffer
end PocketCalculator
