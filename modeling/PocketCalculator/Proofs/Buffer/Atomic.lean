import PocketCalculator.Proofs.Buffer.Deletion
import PocketCalculator.Proofs.Buffer.Typing
import PocketCalculator.Proofs.Token.Lexemes

/-! # Units stay whole

Whatever the keys do to a buffer, its text stays a sequence of key units: every edit cuts the text
where it may be cut and joins keyed texts again.  `Buffer.keyed_edited` says so for one edit, and
`Buffer.edited_atomic` for every sequence of edits of a cleared buffer, with what follows: the
units are found again in only one way, the scanner accepts the text, and an insertion that fills no
slot leaves the cursor behind what it has put in (`Buffer.exists_insertPlain`). -/

namespace PocketCalculator

/-! ### Keys -/

/-- The texts that the keys of the calculator insert. -/
def keyTexts : List Text :=
  arithmeticChars.map ([·]) ++ ansName :: Template.all.map Template.text

/-- The edits that the keys of the calculator make. -/
def Edit.IsKeyed : Edit → Prop
  | .insert t => t ∈ keyTexts
  | .delete | .move _ | .toggleSign | .clear => True
  | _ => False

instance : DecidablePred Edit.IsKeyed
  | .insert t => inferInstanceAs (Decidable (t ∈ keyTexts))
  | .delete | .move _ | .toggleSign | .clear => isTrue trivial
  | .replace _ _ | .fill _ | .enterFraction _ | .toggleFraction | .resetFraction => isFalse id

theorem Template.keyed_text (template : Template) : Keyed template.text := by
  cases template with
  | fraction =>
      exact keyed_blank.append ((keyed_char (c := '/') (by decide) (by decide)).append keyed_blank)
  | root => exact (keyed_char (c := rootSymbol) (by decide) (by decide)).append keyed_blank
  | square => exact keyed_blank.append (keyed_char (c := '²') (by decide) (by decide))
  | cube => exact keyed_blank.append (keyed_char (c := '³') (by decide) (by decide))
  | reciprocal => exact keyed_blank.append (keyed_head .reciprocal)
  | factorial => exact keyed_blank.append (keyed_char (c := '!') (by decide) (by decide))
  | marker m => exact (keyed_head (.marker m)).append keyed_blank
  | circular f =>
      have hclosing := keyed_char (c := ')') (by decide) (by decide)
      have htext : f.text ++ ['(', ')'] = (Head.circular f).text ++ [')'] := by
        simp [Head.text]
      rw [text, htext]
      exact (keyed_head (.circular f)).append hclosing

theorem keyed_of_mem_keyTexts {t : Text} (h : t ∈ keyTexts) : t ≠ [] ∧ Keyed t := by
  have key : arithmeticChars.all
      (fun c => Head.read? [c] = none ∧ [c] ∈ keyUnits) = true := by decide
  rcases List.mem_append.1 h with h | h
  · obtain ⟨c, hc, rfl⟩ := List.mem_map.1 h
    obtain ⟨hread, hunit⟩ := of_decide_eq_true (List.all_eq_true.1 key c hc)
    exact ⟨List.cons_ne_nil c [], keyed_char hread hunit⟩
  · rcases List.mem_cons.1 h with rfl | h
    · exact ⟨Head.ans.text_ne_nil, keyed_head .ans⟩
    · obtain ⟨template, -, rfl⟩ := List.mem_map.1 h
      exact ⟨template.text_ne_nil, template.keyed_text⟩

/-! ### What the keyed texts lack -/

theorem Keyed.withoutFinalBreak {t : Text} (h : Keyed t) : withoutFinalBreak t = t := by
  have key : ∀ u ∈ keyUnits, '\n' ∉ u := by decide
  rw [PocketCalculator.withoutFinalBreak, if_neg]
  intro hlast
  have hmem := List.mem_of_getLast? hlast
  rw [← flatten_units t] at hmem
  obtain ⟨u, hu, hc⟩ := List.mem_flatten.1 hmem
  exact key u (h hu) hc

/-! ### Places where a text is cut -/

theorem OpenPlace.keyed {t : Text} {start stop : Nat} (h : OpenPlace t start stop) (hk : Keyed t) :
    Keyed (t.take start) ∧ Keyed (t.drop stop) := by
  cases h with
  | @blank front back ht =>
      rw [ht] at hk ⊢
      obtain ⟨hfront, hback⟩ := (@opens_cons blankSymbol (by decide) back).keyed hk
      have hdrop : (front ++ blankSymbol :: back).drop (front.length + 1) = back := by simp
      rw [List.take_left, hdrop]
      exact ⟨hfront, ((keyed_cons_iff (by decide)).1 hback).2⟩
  | @parentheses front back f ht =>
      rw [ht] at hk ⊢
      have hlen : front.length + (f.text.length + 1) = (front ++ (f.text ++ ['('])).length := by
        simp
      rw [hlen, List.take_left, List.drop_left]
      exact (@opens_cons ')' (by decide) back).keyed hk
  | behindHalf hf half => exact hk.take_drop (FractionSpan.halfStop_mem_boundaries hf half)

theorem units_closer_append {closer : Text} (hc : closer ∈ Buffer.slotClosers) (t : Text) :
    units (closer ++ t) = closer :: units t := by
  have hchar {c : Char} (hc : c ∉ headInitials) : units (c :: t) = [c] :: units t :=
    units_cons_of_char (Head.read?_cons_eq_none t hc)
  simp only [Buffer.slotClosers, List.mem_cons, List.not_mem_nil, or_false] at hc
  rcases hc with rfl | rfl | rfl | rfl | rfl
  · exact hchar (by decide)
  · exact hchar (by decide)
  · exact units_head_append .reciprocal t
  · exact hchar (by decide)
  · exact hchar (by decide)

namespace Buffer

variable {b : Buffer} {t : Text}

/-! ### Texts around the cursor -/

theorem keyed_before (hk : Keyed b.text) (hs : b.Settled) : Keyed b.before :=
  (hk.take_drop hs.cursor_mem).1

theorem keyed_after (hk : Keyed b.text) (hs : b.Settled) : Keyed b.after :=
  (hk.take_drop hs.cursor_mem).2

theorem take_of_before {front back : Text} (h : b.before = front ++ back) :
    b.text.take front.length = front := by
  rw [← b.before_append_after, h, List.append_assoc, List.take_left]

theorem drop_of_before {front back : Text} (h : b.before = front ++ back) :
    b.text.drop front.length = back ++ b.after := by
  rw [← b.before_append_after, h, List.append_assoc, List.drop_left]

/-! ### Replacing -/

theorem keyed_cleared : Keyed cleared.text :=
  (@keyed_of_mem_keyTexts clearedText (by decide)).2

theorem keyed_replace (b : Buffer) (ht : Keyed t) (cursor : Int) :
    Keyed (b.replace t cursor).text := by
  unfold replace
  split
  · exact keyed_cleared
  · exact ht

theorem keyed_splice {start stop : Nat} (hfront : Keyed (b.text.take start)) (ht : Keyed t)
    (hback : Keyed (b.text.drop stop)) : Keyed (b.splice start stop t).text :=
  b.keyed_replace ((hfront.append ht).append hback) _

/-! ### Insertion -/

/-- What a text becomes when the value in front of the cursor takes its first blank. -/
def inserted (b : Buffer) (t : Text) : Text :=
  if b.adoptsOperand t then t.drop 1 else t

/-- The buffer in which a text has filled an open slot. -/
def filled? (b : Buffer) (t : Text) : Option Buffer :=
  if isFillValue t && slotNear b.text b.cursor then b.fill? t else none

theorem keyed_inserted (b : Buffer) (ht : t ∈ keyTexts) :
    b.inserted t ≠ [] ∧ Keyed (b.inserted t) := by
  have key : ∀ t ∈ keyTexts, t.startsWith [blankSymbol] = true → t.drop 1 ≠ [] := by decide
  obtain ⟨hne, hkeyed⟩ := keyed_of_mem_keyTexts ht
  rw [inserted]
  split
  · rename_i hadopts
    simp only [adoptsOperand, Bool.and_eq_true] at hadopts
    have hstarts := hadopts.1.1.2
    refine ⟨key t ht hstarts, ?_⟩
    obtain ⟨rest, rfl⟩ := Text.startsWith_iff.1 hstarts
    exact ((keyed_cons_iff (by decide)).1 hkeyed).2
  · exact ⟨hne, hkeyed⟩

/-- A text put between two others comes to stand there, with the cursor behind it. -/
theorem replace_keyed (b : Buffer) {front back : Text} (hf : Keyed front) (ht : Keyed t)
    (hb : Keyed back) (hne : t ≠ []) :
    (b.replace (front ++ t ++ back) (front ++ t).length).text = front ++ t ++ back ∧
      (b.replace (front ++ t ++ back) (front ++ t).length).cursor = (front ++ t).length := by
  have hne' : front ++ t ++ back ≠ [] := by simp [hne]
  refine ⟨b.text_replace hne' _, ?_⟩
  rw [replace, if_neg hne']
  exact snap_of_mem_boundaries ((hf.append ht).length_mem_boundaries hb)

/-- An insertion that fills no slot is a replacement or a splice of the text, with what it does to
the editing of a fraction before and afterwards. -/
theorem exists_insertPlain_eq (b : Buffer) (t : Text) : ∃ e e', b.insertPlain t =
    (if b.text = clearedText && replacesZero (b.inserted t) then
        (b.withFraction e).replace (b.inserted t) (b.inserted t).length
      else (b.withFraction e).splice b.cursor b.cursor (b.inserted t)).withFraction e' := by
  obtain ⟨e, he⟩ : ∃ e, (if isOperatorText t then b.withFraction .idle else b) =
      b.withFraction e := by
    split
    · exact ⟨_, rfl⟩
    · exact ⟨b.fraction, rfl⟩
  have hinserted : (if (b.withFraction e).adoptsOperand t = true then t.drop 1 else t) =
      b.inserted t := rfl
  refine ⟨e, ?_⟩
  unfold insertPlain
  rw [he]
  dsimp only
  rw [hinserted]
  split
  · exact ⟨_, rfl⟩
  · exact ⟨_, (withFraction_self _).symm⟩

/-- An insertion that fills no slot puts its text in at the cursor, or in the place of the zero of a
cleared buffer, and leaves the cursor behind it. -/
theorem exists_insertPlain_of_keyed (hk : Keyed b.text) (hs : b.Settled)
    (hput : b.inserted t ≠ [] ∧ Keyed (b.inserted t)) :
    ∃ front back, (front = b.before ∧ back = b.after ∨
        b.text = clearedText ∧ front = [] ∧ back = []) ∧
      (b.insertPlain t).text = front ++ b.inserted t ++ back ∧
      (b.insertPlain t).cursor = (front ++ b.inserted t).length := by
  obtain ⟨hne, hkeyed⟩ := hput
  obtain ⟨e, e', heq⟩ := b.exists_insertPlain_eq t
  rw [heq]
  split
  · rename_i hzero
    simp only [Bool.and_eq_true, decide_eq_true_eq] at hzero
    refine ⟨[], [], .inr ⟨hzero.1, rfl, rfl⟩, ?_⟩
    have hput := (b.withFraction e).replace_keyed keyed_nil hkeyed keyed_nil hne
    rw [List.nil_append, List.append_nil] at hput ⊢
    exact hput
  · refine ⟨b.before, b.after, .inl ⟨rfl, rfl⟩, ?_⟩
    have hput := (b.withFraction e).replace_keyed (keyed_before hk hs) hkeyed (keyed_after hk hs)
      hne
    rw [List.length_append, length_before hs] at hput ⊢
    exact hput

theorem exists_insertPlain (hk : Keyed b.text) (hs : b.Settled) (ht : t ∈ keyTexts) :
    ∃ front back, (front = b.before ∧ back = b.after ∨
        b.text = clearedText ∧ front = [] ∧ back = []) ∧
      (b.insertPlain t).text = front ++ b.inserted t ++ back ∧
      (b.insertPlain t).cursor = (front ++ b.inserted t).length :=
  exists_insertPlain_of_keyed hk hs (b.keyed_inserted ht)

theorem keyed_insertPlain (hk : Keyed b.text) (hs : b.Settled)
    (hput : b.inserted t ≠ [] ∧ Keyed (b.inserted t)) : Keyed (b.insertPlain t).text := by
  obtain ⟨front, back, ⟨rfl, rfl⟩ | ⟨-, rfl, rfl⟩, htext, -⟩ :=
    exists_insertPlain_of_keyed hk hs hput
  · rw [htext]
    exact ((keyed_before hk hs).append hput.2).append (keyed_after hk hs)
  · rw [htext]
    simpa using hput.2

theorem keyed_of_fill? {b' : Buffer} (hk : Keyed b.text) (ht : Keyed t) (h : b.fill? t = some b') :
    Keyed b'.text := by
  obtain ⟨-, e, start, stop, hplace, rfl⟩ := exists_of_fill? h
  obtain ⟨hfront, hback⟩ := hplace.keyed hk
  exact keyed_splice hfront ht hback

theorem insert_of_none (ht : t ≠ []) (h : b.filled? t = none) :
    b.insert t = b.insertPlain t := by
  rw [filled?] at h
  rw [insert, if_neg ht, h]

theorem insert_of_some {b' : Buffer} (ht : t ≠ []) (h : b.filled? t = some b') :
    b.insert t = b' := by
  rw [filled?] at h
  rw [insert, if_neg ht, h]

theorem keyed_insert_of_keyed (hk : Keyed b.text) (hs : b.Settled) (hne : t ≠ []) (ht : Keyed t)
    (hput : b.inserted t ≠ [] ∧ Keyed (b.inserted t)) : Keyed (b.insert t).text := by
  cases hf : b.filled? t with
  | none =>
      rw [insert_of_none hne hf]
      exact keyed_insertPlain hk hs hput
  | some b' =>
      rw [insert_of_some hne hf]
      rw [filled?] at hf
      split at hf
      · exact keyed_of_fill? hk ht hf
      · cases hf

theorem keyed_insert (hk : Keyed b.text) (hs : b.Settled) (ht : t ∈ keyTexts) :
    Keyed (b.insert t).text :=
  keyed_insert_of_keyed hk hs (keyed_of_mem_keyTexts ht).1 (keyed_of_mem_keyTexts ht).2
    (b.keyed_inserted ht)

/-! ### Deletion -/

theorem closerLength_mem_boundaries {closer after : Text} (hc : closer? after = some closer) :
    closerLength closer after ∈ boundaries after := by
  obtain ⟨rest, rfl⟩ := Text.startsWith_iff.1 (List.find?_some hc)
  have hunits := units_closer_append (List.mem_of_find?_eq_some hc) rest
  rw [closerLength, List.drop_left]
  split
  · rename_i hbar
    rw [Bool.and_eq_true] at hbar
    obtain ⟨rest, rfl⟩ := Text.startsWith_iff.1 hbar.2
    rw [List.singleton_append, units_cons_of_char (Head.read?_cons_eq_none _ (by decide))] at hunits
    exact mem_boundaries_iff.2 ⟨[closer, [blankSymbol]], _, hunits, by simp⟩
  · exact mem_boundaries_iff.2 ⟨[closer], _, hunits, by simp⟩

theorem TakesUnit.keyed {remaining unit : Text} (h : b.TakesUnit remaining unit)
    (hk : Keyed b.before) : Keyed remaining ∧ Keyed unit := by
  obtain ⟨l, hl, rfl⟩ := h.exists_units
  rw [Keyed, hl] at hk
  obtain ⟨hremaining, hunit⟩ := List.append_subset.1 hk
  have hkunit := keyed_flatten hunit
  rw [List.flatten_singleton] at hkunit
  exact ⟨keyed_flatten hremaining, hkunit⟩

/-- The texts that a deletion leaves on both sides of the cursor are keyed. -/
theorem Deletes.keyed {front back : Text} (h : b.Deletes front back) (hk : Keyed b.text)
    (hs : b.Settled) : Keyed front ∧ Keyed back := by
  have hbefore := keyed_before hk hs
  have hafter := keyed_after hk hs
  -- in front of a template the text may be cut
  have htake {u v : Text} (hsplit : b.before = u ++ v) (hopens : Opens v) :
      Keyed (b.before.take u.length) := by
    rw [hsplit] at hbefore ⊢
    rw [List.take_left]
    exact (hopens.keyed hbefore).1
  cases h with
  | filled hfilled =>
      obtain ⟨front, back, hsplit, rfl, hfills⟩ :=
        Filled.exists_of_before? hbefore.withoutFinalBreak hfilled
      exact ⟨(htake hsplit hfills.opens).append (Template.keyed_text _), hafter⟩
  | whole hwhole =>
      cases hwhole with
      | template hfilled hempty =>
          obtain ⟨front, template, hsplit, rfl⟩ :=
            exists_of_emptyTemplateBefore? hbefore.withoutFinalBreak hempty
          exact ⟨htake hsplit template.opens_text, hafter⟩
      | slot hunit hcloser =>
          have hboundary := closerLength_mem_boundaries hcloser
          exact ⟨(hunit.keyed hbefore).1, (hafter.take_drop hboundary).2⟩
  | operand hunit hblank hcloser hvalue =>
      exact ⟨(hunit.keyed hbefore).1.append keyed_blank, hafter⟩
  | unit hunit hcloser => exact ⟨(hunit.keyed hbefore).1, hafter⟩

theorem keyed_delete (hk : Keyed b.text) (hs : b.Settled) : Keyed b.delete.text := by
  by_cases hbefore : b.before = []
  · rwa [delete_of_before hbefore]
  · obtain ⟨front, back, hdeletes⟩ := exists_deletes hbefore
    obtain ⟨hfront, hback⟩ := hdeletes.keyed hk hs
    rw [hdeletes.text_delete]
    split
    · exact keyed_cleared
    · exact hfront.append hback

/-! ### Sign -/

theorem opens_numerals {run : Text} (hrun : ∀ c ∈ run, isNumeralChar c = true) : Opens run := by
  by_cases hne : run = []
  · rw [hne]
    exact opens_nil
  · have hopens := opens_run hne hrun (List.not_mem_nil (a := '^'))
    rwa [List.append_nil] at hopens

theorem keyed_toggleSign (hk : Keyed b.text) (hs : b.Settled) : Keyed b.toggleSign.text := by
  have hbefore := keyed_before hk hs
  -- the number in front of the cursor parts the text before it
  obtain ⟨front, run, hsplit, hlen, hrun⟩ : ∃ front run, b.before = front ++ run ∧
      run.length = (b.before.reverse.takeWhile isNumeralChar).length ∧
      ∀ c ∈ run, isNumeralChar c = true := by
    refine ⟨(b.before.reverse.dropWhile isNumeralChar).reverse,
      (b.before.reverse.takeWhile isNumeralChar).reverse, ?_, List.length_reverse, ?_⟩
    · rw [← List.reverse_append, List.takeWhile_append_dropWhile, List.reverse_reverse]
    · exact fun c hc => List.mem_takeWhile_imp (List.mem_reverse.1 hc)
  have hstart : b.cursor - run.length = front.length := by
    rw [← length_before hs, hsplit, List.length_append, Nat.add_sub_cancel]
  obtain ⟨hfront, hkrun⟩ := (opens_numerals hrun).keyed (hsplit ▸ hbefore)
  have hback : Keyed (run ++ b.after) := hkrun.append (keyed_after hk hs)
  unfold toggleSign
  dsimp only
  rw [← hlen, hstart, take_of_before hsplit, drop_of_before hsplit]
  split
  · exact hk
  · split
    · rename_i hsign
      simp only [Bool.and_eq_true, decide_eq_true_eq] at hsign
      obtain ⟨front', rfl⟩ := List.getLast?_eq_some_iff.1 hsign.1
      rw [List.dropLast_concat]
      exact b.keyed_replace (((opens_cons (by decide) []).keyed hfront).1.append hback) _
    · have hminus : Keyed ('-' :: (run ++ b.after)) :=
        (keyed_cons_iff (by decide)).2 ⟨by decide, hback⟩
      exact b.keyed_replace (hfront.append hminus) _

/-! ### Sequences of edits -/

/-- Every edit of the keys keeps the units of the text whole. -/
theorem keyed_edited (hk : Keyed b.text) (hs : b.Settled) {e : Edit} (he : e.IsKeyed) :
    Keyed (b.edited e).text := by
  cases e with
  | insert t => exact keyed_insert hk hs he
  | delete => exact keyed_delete hk hs
  | move d =>
      rw [edited, text_move]
      exact hk
  | toggleSign => exact keyed_toggleSign hk hs
  | clear => exact keyed_cleared
  | _ => exact absurd he id

theorem keyed_foldl_edited (hk : Keyed b.text) (hs : b.Settled) {edits : List Edit}
    (h : ∀ e ∈ edits, e.IsKeyed) : Keyed (edits.foldl edited b).text := by
  induction edits generalizing b with
  | nil => exact hk
  | cons e edits ih =>
      refine ih (keyed_edited hk hs (h e List.mem_cons_self)) (settled_edited hs e) ?_
      exact fun e' he' => h e' (List.mem_cons_of_mem e he')

/-- After any sequence of edits of a cleared buffer by keys, the text is made of key units, in only
one way; the scanner accepts it; and an insertion that fills no slot puts its text in at the cursor,
or in the place of the single zero, and leaves the cursor behind it. -/
theorem edited_atomic (edits : List Edit) (h : ∀ e ∈ edits, e.IsKeyed) :
    let b := edits.foldl edited cleared
    units b.text ⊆ keyUnits ∧
      (∀ us, us ⊆ keyUnits → us.flatten = b.text → units b.text = us) ∧
      (∃ tokens, Token.scan b.text = .ok tokens) ∧
      ∀ t ∈ keyTexts, b.filled? t = none →
        ∃ front back, (front = b.before ∧ back = b.after ∨
            b.text = clearedText ∧ front = [] ∧ back = []) ∧
          (b.insert t).text = front ++ b.inserted t ++ back ∧
          (b.insert t).cursor = (front ++ b.inserted t).length := by
  have hs := settled_foldl_edited settled_cleared edits
  have hk := keyed_foldl_edited keyed_cleared settled_cleared h
  refine ⟨hk, fun us hus hflat => ?_, Token.exists_scan_of_keyed hk, fun t ht hnone => ?_⟩
  · rw [← hflat, units_flatten hus]
  · rw [insert_of_none (keyed_of_mem_keyTexts ht).1 hnone]
    exact exists_insertPlain hk hs ht

/-- A power of ten is emptied as a whole, its sign included. -/
theorem edited_atomic_power :
    let edits : List Edit :=
      [.insert ['7'], .insert (Template.marker .tenPower).text, .insert ['5'], .toggleSign, .delete]
    let b := edits.foldl edited cleared
    (∀ e ∈ edits, e.IsKeyed) ∧ b.text = "7×10^□".toList ∧ units b.text ⊆ keyUnits ∧
      (∃ tokens, Token.scan b.text = .ok tokens) ∧
      b.filled? ['+'] = none ∧ (b.insert ['+']).text = "7×10^□+".toList ∧
      (b.insert ['+']).cursor = 7 := by
  intro edits b
  have hkeys : ∀ e ∈ edits, e.IsKeyed := by decide
  obtain ⟨hunits, -, hscan, -⟩ := edited_atomic edits hkeys
  have htext : b.text = "7×10^□".toList ∧ b.filled? ['+'] = none ∧
      (b.insert ['+']).text = "7×10^□+".toList ∧ (b.insert ['+']).cursor = 7 := by
    decide +kernel
  exact ⟨hkeys, htext.1, hunits, hscan, htext.2⟩

end Buffer
end PocketCalculator
