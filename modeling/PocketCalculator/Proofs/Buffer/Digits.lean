import PocketCalculator.Proofs.Buffer.Atomic
import PocketCalculator.Proofs.Buffer.Splicing
import PocketCalculator.Proofs.Template.Lengthening

/-! # Digits typed at the cursor

A digit comes to stand at the cursor unless an open slot near to the cursor takes it somewhere else:
into a blank, between other parentheses, or behind the number in the half of a fraction.  A buffer
`TakesDigit` where none does, and there each digit comes to stand at the cursor
(`Buffer.TakesDigit.insert_eq`).

Behind a digit this lasts: the number grows, and no slot comes near (`Buffer.Steady.insert`).  A
digit that goes astray fills a blank, or the digits behind it follow it (`Buffer.strays_insert`). -/

namespace PocketCalculator

variable {c d : Char} {n : Text}

namespace Buffer

variable {b : Buffer}

/-- A digit that is typed comes to stand at the cursor: no slot is open near to it, or the first
open slot is the place between the parentheses where the cursor is, or the half of a fraction with
the focus is the name of the last result, which is not lengthened, or a number that ends at the
cursor. -/
inductive TakesDigit (b : Buffer) : Prop where
  | apart (hnear : slotNear b.text b.cursor = false)
  | parentheses {kind s} (hslot : (slots b.text).head? = some (.simple kind s))
      (hkind : kind = .circular ∨ kind = .inverse) (hstop : s.stop = b.cursor + 1)
  | named {f} (hopen : ∃ g ∈ fractions b.text, g.hasBlank = true)
      (hactive : b.fraction.active = true)
      (hfound : findFraction? b.text (some b.cursor) = some f)
      (hans : f.half b.fraction.focus = ansName)
  | number {f} (hopen : ∃ g ∈ fractions b.text, g.hasBlank = true)
      (hactive : b.fraction.active = true)
      (hfound : findFraction? b.text (some b.cursor) = some f)
      (hblank : f.half b.fraction.focus ≠ [blankSymbol])
      (hstop : f.halfStop b.fraction.focus = b.cursor)

/-! ### Insertions of digits -/

/-- Digits and points that fill no slot come to stand at the cursor, or in the place of the zero of
a cleared buffer. -/
theorem insertPlain_plain (hn : ∀ x ∈ n, isPlainNumeralChar x = true) :
    b.insertPlain n = if b.text = clearedText && replacesZero n then b.replace n n.length
      else b.splice b.cursor b.cursor n := by
  have hnot {x : Char} (hx : isPlainNumeralChar x = false) : x ∉ n := by
    intro hmem
    rw [hn x hmem] at hx
    cases hx
  have htemplate : Template.ofText? n = none :=
    Template.ofText?_eq_none (hnot (by decide)) (hnot (by decide))
  have hoperator : isOperatorText n = false := by
    have key : ([['+'], ['-'], ['×'], ['÷']] : List Text).all
        (fun t => t.any fun x => !isPlainNumeralChar x) = true := by decide
    rw [isOperatorText, decide_eq_false_iff_not]
    intro hmem
    obtain ⟨x, hx, hplain⟩ := List.any_eq_true.1 (List.all_eq_true.1 key n hmem)
    rw [Bool.not_eq_true'] at hplain
    exact hnot hplain hx
  have hadopts : b.adoptsOperand n = false := by
    rw [adoptsOperand, htemplate]
    rfl
  have hfraction : n ≠ Template.fraction.text := by
    rintro rfl
    exact hnot (x := '/') (by decide) (by decide)
  rw [insertPlain, hoperator, if_neg Bool.false_ne_true, hadopts, if_neg hfraction,
    if_neg Bool.false_ne_true]

theorem mem_keyTexts_plain (hc : isPlainNumeralChar c = true) : [c] ∈ keyTexts := by
  have key : plainNumeralChars.all (fun c => [c] ∈ keyTexts) = true := by decide
  exact forall_plain key hc

theorem replacesZero_plain (hc : isPlainNumeralChar c = true) : replacesZero [c] = true := by
  have key : plainNumeralChars.all (fun c => replacesZero [c] = true) = true := by decide
  exact forall_plain key hc

theorem insertPlain_of_ne (hc : isPlainNumeralChar c = true) (hz : b.text ≠ clearedText) :
    b.insertPlain [c] = b.splice b.cursor b.cursor [c] := by
  rw [insertPlain_plain (by simpa using hc), decide_eq_false hz, Bool.false_and,
    if_neg Bool.false_ne_true]

theorem insert_plain (hc : isPlainNumeralChar c = true) : b.insert [c] =
    if slotNear b.text b.cursor then (b.fill? [c]).getD (b.insertPlain [c])
    else b.insertPlain [c] := by
  rw [insert, if_neg (List.cons_ne_nil c []), (isFillValue_plain hc).1, Bool.true_and]
  cases slotNear b.text b.cursor with
  | false => rfl
  | true => cases b.fill? [c] <;> rfl

/-- What a digit fills, by the first open slot. -/
theorem fill?_plain (hc : isPlainNumeralChar c = true) : b.fill? [c] =
    match (slots b.text).head? with
    | none => none
    | some (.simple _ s) => some (b.fillSimple s [c])
    | some (.fraction f) => b.fillFraction? (b.fractionToFill f) [c] := by
  obtain ⟨hvalue, hminus⟩ := isFillValue_plain hc
  rw [fill?, if_pos hvalue, slotToFill?_eq_head? hminus]
  rfl

theorem fillFraction?_of_active (hactive : b.fraction.active = true) (f : FractionSpan)
    (hc : isPlainNumeralChar c = true) : b.fillFraction? f [c] =
      if f.half b.fraction.focus = [blankSymbol] then
        some (b.splice (f.halfStart b.fraction.focus) (f.halfStop b.fraction.focus) [c])
      else if f.half b.fraction.focus = ansName then none
      else some (b.splice (f.halfStop b.fraction.focus) (f.halfStop b.fraction.focus) [c]) := by
  have hans : [c] ≠ ansName := by
    intro h
    cases h
  simp only [fillFraction?, halfToFill, hactive, if_true, hans, false_or]

/-- What a digit takes the place of: nothing, a blank, or the zero of a cleared buffer. -/
theorem exists_parts_insert (b : Buffer) (hc : isPlainNumeralChar c = true) :
    ∃ front middle back, b.text = front ++ middle ++ back ∧
      (b.insert [c]).text = front ++ c :: back := by
  have hplain : ∃ front middle back, b.text = front ++ middle ++ back ∧
      (b.insertPlain [c]).text = front ++ c :: back := by
    rw [insertPlain_plain (by simpa using hc)]
    split
    · exact ⟨[], b.text, [], (List.append_nil _).symm, b.text_replace (List.cons_ne_nil c []) _⟩
    · refine ⟨b.before, [], b.after, ?_, ?_⟩
      · rw [List.append_nil, b.before_append_after]
      · rw [b.text_splice _ _ (List.cons_ne_nil c []), List.append_assoc]
        rfl
  rw [insert_plain hc]
  split
  · cases hfill : b.fill? [c] with
    | none => exact hplain
    | some b' =>
        obtain ⟨-, front, middle, back, htext, -, htext', -⟩ := exists_parts_of_fill? hfill
        refine ⟨front, middle, back, htext, ?_⟩
        rw [Option.getD_some, htext', List.append_assoc]
        rfl
  · exact hplain

theorem ne_blank_of_plain (hc : isPlainNumeralChar c = true) : c ≠ blankSymbol := by
  rintro rfl
  exact absurd hc (by decide)

/-- The buffer after the characters of a text have been put in one at a time. -/
def insertEach (b : Buffer) (n : Text) : Buffer :=
  n.foldl (fun b c => b.insert [c]) b

theorem insertEach_le (b : Buffer) (hn : ∀ x ∈ n, isPlainNumeralChar x = true) :
    (b.insertEach n).text.count blankSymbol ≤ b.text.count blankSymbol ∧
      (b.insertEach n).text.length ≤ b.text.length + n.length := by
  induction n generalizing b with
  | nil => exact ⟨Nat.le_refl _, Nat.le_refl _⟩
  | cons c n ih =>
      have hc := hn c List.mem_cons_self
      obtain ⟨hcount, hlength⟩ := ih (b.insert [c]) fun x hx => hn x (List.mem_cons_of_mem c hx)
      obtain ⟨front, middle, back, htext, htext'⟩ := b.exists_parts_insert hc
      rw [htext', List.count_append, List.count_cons_of_ne (ne_blank_of_plain hc)] at hcount
      rw [htext', List.length_append, List.length_cons] at hlength
      rw [htext, List.count_append, List.count_append, List.length_append, List.length_append,
        List.length_cons]
      constructor
      · exact hcount.trans (by omega)
      · exact hlength.trans (by omega)

/-! ### Where a digit goes -/

theorem count_splice_gap {start stop : Nat} (h : Gap b.text start stop) (hlt : start < stop)
    (hc : isPlainNumeralChar c = true) :
    (b.splice start stop [c]).text.count blankSymbol < b.text.count blankSymbol := by
  cases h with
  | @blank front back ht =>
      have hdrop : (front ++ blankSymbol :: back).drop (front.length + 1) = back := by simp
      rw [b.text_splice _ _ (List.cons_ne_nil c []), ht, List.take_left, hdrop]
      simp [ne_blank_of_plain hc]
  | parentheses f ht => omega

theorem blank_mem_pattern_iff {kind : SlotKind} (hkind : kind ∈ SlotKind.inOrder) {p : Text}
    (hp : p ∈ kind.patterns) : blankSymbol ∈ p ↔ ¬(kind = .circular ∨ kind = .inverse) := by
  have key : ∀ kind ∈ SlotKind.inOrder, ∀ p ∈ kind.patterns,
      (blankSymbol ∈ p ↔ ¬(kind = .circular ∨ kind = .inverse)) := by decide
  exact key kind hkind p hp

section slot

variable {kind : SlotKind} {s : Span} (hslot : .simple kind s ∈ slots b.text)
include hslot

theorem count_fillSimple (hkind : ¬(kind = .circular ∨ kind = .inverse))
    (hc : isPlainNumeralChar c = true) :
    (b.fillSimple s [c]).text.count blankSymbol < b.text.count blankSymbol := by
  obtain ⟨hmem, front, p, back, htext, hp, hstart, hstop⟩ := exists_of_mem_slots hslot
  obtain ⟨p₁, p₂, rfl, hnot⟩ :=
    List.eq_append_cons_of_mem ((blank_mem_pattern_iff hmem hp).2 hkind)
  have ht : b.text = (front ++ p₁) ++ blankSymbol :: (p₂ ++ back) := by
    rw [htext]
    simp
  rw [fillSimple_blank htext hnot hstart hstop]
  exact count_splice_gap (.blank ht) (Nat.lt_succ_self _) hc

/-- A digit goes between the parentheses of a circular function. -/
theorem exists_fillSimple_parentheses (hkind : kind = .circular ∨ kind = .inverse) (t : Text) :
    ∃ front back, b.text = (front ++ ['(']) ++ ')' :: back ∧
      s.stop = (front ++ ['(']).length + 1 ∧
      b.fillSimple s t = b.splice (front ++ ['(']).length (front ++ ['(']).length t := by
  obtain ⟨hmem, front, p, back, htext, hp, hstart, hstop⟩ := exists_of_mem_slots hslot
  have hblank : blankSymbol ∉ p := fun hb => (blank_mem_pattern_iff hmem hp).1 hb hkind
  obtain ⟨f, rfl⟩ := (blank_mem_or_of_mem_patterns hmem hp).resolve_left hblank
  have hlength : front.length + (f.text.length + 1) = (front ++ f.text ++ ['(']).length := by
    simp
  refine ⟨front ++ f.text, back, ?_, ?_, ?_⟩
  · rw [htext]
    simp
  · rw [hstop, hstart, ← hlength, List.length_append]
    rfl
  · rw [fillSimple_parentheses htext hstart hstop, hlength]

end slot

/-- A place that takes digits takes each of them at the cursor. -/
theorem TakesDigit.insert_eq (h : b.TakesDigit) (hc : isPlainNumeralChar c = true)
    (hz : b.text ≠ clearedText) : b.insert [c] = b.splice b.cursor b.cursor [c] := by
  -- the fraction to be edited is the one that is found at the cursor
  have hfraction {f : FractionSpan} (hopen : ∃ g ∈ fractions b.text, g.hasBlank = true)
      (hactive : b.fraction.active = true)
      (hfound : findFraction? b.text (some b.cursor) = some f) :
      b.fill? [c] = b.fillFraction? f [c] := by
    obtain ⟨g, hg, hblank⟩ := hopen
    obtain ⟨f₀, hslot⟩ := head?_slots_of_hasBlank hg hblank
    rw [fill?_plain hc, hslot]
    dsimp only
    rw [fractionToFill, if_pos hactive, hfound, Option.getD_some]
  rw [insert_plain hc, insertPlain_of_ne hc hz]
  split
  · rename_i hnear
    cases h with
    | apart hfar =>
        rw [hfar] at hnear
        cases hnear
    | @parentheses kind s hslot hkind hstop =>
        obtain ⟨front, back, -, hstop', hfill⟩ :=
          exists_fillSimple_parentheses (List.mem_of_mem_head? hslot) hkind [c]
        have hcursor : b.cursor = (front ++ ['(']).length := by omega
        rw [fill?_plain hc, hslot, hcursor]
        exact hfill
    | named hopen hactive hfound hans =>
        rw [hfraction hopen hactive hfound, fillFraction?_of_active hactive _ hc, hans,
          if_neg (by decide), if_pos rfl, Option.getD_none]
    | number hopen hactive hfound hblank hstop =>
        rw [hfraction hopen hactive hfound, fillFraction?_of_active hactive _ hc, if_neg hblank,
          hstop]
        split <;> rfl
  · rfl

/-! ### Digits behind digits -/

/-- The cursor is behind a digit or a point, and the place takes digits. -/
structure Steady (b : Buffer) : Prop where
  takes : b.TakesDigit
  uncleared : b.text ≠ clearedText
  digit : ∃ u d, b.before = u ++ [d] ∧ isPlainNumeralChar d = true

theorem ne_clearedText {t : Text} (h : 1 < t.length) : t ≠ clearedText := by
  rintro rfl
  exact absurd h (by decide)

theorem keyed_plain (hn : ∀ x ∈ n, isPlainNumeralChar x = true) : Keyed n := by
  have key : plainNumeralChars.all (fun c => c ∉ headInitials ∧ [c] ∈ keyUnits) = true := by decide
  induction n with
  | nil => exact keyed_nil
  | cons c n ih =>
      obtain ⟨hinitial, hunit⟩ := forall_plain key (hn c List.mem_cons_self)
      exact (keyed_cons_iff hinitial).2 ⟨hunit, ih fun x hx => hn x (List.mem_cons_of_mem c hx)⟩

/-- A keyed text that is put in between keyed texts stands there, with the cursor behind it. -/
theorem splice_keyed {front t back : Text} (htext : b.text = front ++ back) (hf : Keyed front)
    (ht : Keyed t) (hb : Keyed back) (hne : t ≠ []) :
    (b.splice front.length front.length t).before = front ++ t ∧
      (b.splice front.length front.length t).text = front ++ t ++ back ∧
      (b.splice front.length front.length t).cursor = (front ++ t).length := by
  obtain ⟨htext', hcursor'⟩ := b.replace_keyed hf ht hb hne
  rw [splice, htext, List.take_left, List.drop_left, ← List.length_append]
  refine ⟨?_, htext', hcursor'⟩
  rw [before, htext', hcursor', List.take_left]

theorem fraction_splice (start stop : Nat) {t : Text} (ht : t ≠ [])
    (hsome : fractions (b.splice start stop t).text ≠ []) :
    (b.splice start stop t).fraction = b.fraction := by
  rw [b.text_splice _ _ ht] at hsome
  have hempty := List.isEmpty_eq_false_iff.2 hsome
  rw [splice, replace, if_neg (by simp [ht]), hempty, Bool.and_false]
  rfl

theorem exists_digit_of_half {t : Text} {f : FractionSpan} (hf : f ∈ fractions t) {h : Half}
    (hblank : f.half h ≠ [blankSymbol]) (hans : f.half h ≠ ansName) :
    ∃ u d v, t = u ++ d :: v ∧ isPlainNumeralChar d = true ∧ f.halfStop h = u.length + 1 := by
  obtain ⟨hne, hplain⟩ := (FractionSpan.isHalf hf h).isPlainNumeralChar hblank hans
  obtain ⟨rest, hrest⟩ := FractionSpan.half_prefix_drop hf h
  have hstart : f.halfStart h ≤ t.length := by
    have hstop := le_length_of_mem_boundaries (FractionSpan.halfStop_mem_boundaries hf h)
    rw [FractionSpan.halfStop] at hstop
    omega
  rcases List.eq_nil_or_concat (f.half h) with hnil | ⟨l, d, hl⟩
  · exact absurd hnil hne
  · rw [List.concat_eq_append] at hl
    refine ⟨t.take (f.halfStart h) ++ l, d, rest, ?_, hplain d (by simp [hl]), ?_⟩
    · rw [List.append_assoc, ← List.singleton_append, ← List.append_assoc l, ← hl, hrest,
        List.take_append_drop]
    · rw [FractionSpan.halfStop, hl, List.length_append, List.length_append,
        List.length_take_of_le hstart, List.length_singleton, Nat.add_assoc]

section keyed

variable (hk : Keyed b.text) (hc : isPlainNumeralChar c = true)
include hk hc

theorem splice_digit {u v : Text} (htext : b.text = u ++ d :: v)
    (hplace : (u ++ [d]).length ∈ boundaries b.text) :
    let b' := b.splice (u ++ [d]).length (u ++ [d]).length [c]
    b'.before = u ++ [d] ++ [c] ∧ b'.text = u ++ d :: c :: v ∧ b'.cursor = u.length + 1 + 1 := by
  rw [List.append_cons] at htext
  rw [htext] at hk hplace
  obtain ⟨hf, hb⟩ := hk.of_mem_boundaries hplace
  have hput := splice_keyed htext hf (keyed_plain (n := [c]) (by simpa using hc)) hb (by simp)
  simpa using hput

/-- Where the half with the focus takes digits, it goes on taking them behind a new one. -/
theorem steady_of_lengthened {u v : Text} {f : FractionSpan} (htext : b.text = u ++ d :: v)
    (hplace : (u ++ [d]).length ∈ boundaries b.text) (hd : isPlainNumeralChar d = true)
    (hopen : ∃ g ∈ fractions b.text, g.hasBlank = true) (hactive : b.fraction.active = true)
    (hfound : findFraction? b.text (some (u.length + 1 : Nat)) = some f)
    (h : f.half b.fraction.focus = ansName ∨
      f.half b.fraction.focus ≠ [blankSymbol] ∧ f.halfStop b.fraction.focus = u.length + 1) :
    (b.splice (u ++ [d]).length (u ++ [d]).length [c]).Steady := by
  obtain ⟨hbefore', htext', hcursor'⟩ := splice_digit hk hc htext hplace
  have hkept := fraction_splice (b := b) (u ++ [d]).length (u ++ [d]).length
    (List.cons_ne_nil c [])
  generalize b.splice (u ++ [d]).length (u ++ [d]).length [c] = b' at *
  have hne : f.numerator ≠ [] :=
    (FractionSpan.isHalf (mem_fractions_of_findFraction? hfound) .numerator).ne_nil
  rw [htext] at hopen hfound
  have hopen' := (exists_hasBlank_iff hd hc u v).2 hopen
  rw [← htext'] at hopen'
  have hsome : fractions b'.text ≠ [] := by
    obtain ⟨g, hg, -⟩ := hopen'
    exact List.ne_nil_of_mem hg
  rw [← hkept hsome] at hactive h
  have hrel := rel_findFraction? hd hc u v
  rw [hfound, ← htext', ← hcursor'] at hrel
  generalize hfound' : findFraction? b'.text (some (b'.cursor : Int)) = o at hrel
  refine ⟨?_, htext' ▸ ne_clearedText (by simp; omega), u ++ [d], c, hbefore', hc⟩
  cases hrel with
  | @some _ f' hlength =>
      rcases h with hans | ⟨hblank, hstop⟩
      · exact .named hopen' hactive hfound' ((hlength.half_eq_ansName_iff _).2 hans)
      · refine .number hopen' hactive hfound' ?_ ?_
        · exact fun hb => hblank ((hlength.half_eq_blank_iff _).1 hb)
        · rw [hcursor']
          exact hlength.halfStop_eq hne hstop

theorem steady_between_parentheses {front back : Text}
    (htext : b.text = (front ++ ['(']) ++ ')' :: back) :
    let b' := b.splice (front ++ ['(']).length (front ++ ['(']).length [c]
    b'.Steady ∧ b'.cursor = (front ++ ['(']).length + 1 := by
  rw [htext] at hk
  obtain ⟨hf, hb⟩ := (opens_cons (by decide) back).keyed hk
  obtain ⟨hbefore', htext', hcursor'⟩ :=
    splice_keyed htext hf (keyed_plain (n := [c]) (by simpa using hc)) hb (List.cons_ne_nil c [])
  refine ⟨⟨.apart ?_, htext' ▸ ne_clearedText (by simp; omega), _, c, hbefore', hc⟩,
    hcursor'.trans List.length_append⟩
  have ht : front ++ ['('] ++ [c] ++ ')' :: back = front ++ '(' :: c :: ')' :: back := by simp
  have hlength : (front ++ ['('] ++ [c]).length = front.length + 1 + 1 := by simp
  rw [htext', hcursor', ht, hlength]
  exact slotNear_between_parentheses hc front back

/-- Behind a digit that comes to stand behind another one, the place takes digits again. -/
theorem Steady.insert (h : b.Steady) (hs : b.Settled) : (b.insert [c]).Steady := by
  obtain ⟨u, d, hbefore, hd⟩ := h.digit
  have hcursor : b.cursor = (u ++ [d]).length := by rw [← hbefore, length_before hs]
  have htext : b.text = u ++ d :: b.after := by
    rw [← b.before_append_after, hbefore, List.append_assoc, List.singleton_append]
  have hplace := hcursor ▸ hs.cursor_mem
  obtain ⟨hbefore', htext', hcursor'⟩ := splice_digit hk hc htext hplace
  have hlength : (u ++ [d]).length = u.length + 1 := List.length_append
  rw [h.takes.insert_eq hc h.uncleared, hcursor]
  cases h.takes with
  | apart hfar =>
      refine ⟨.apart ?_, htext' ▸ ne_clearedText (by simp; omega), _, c, hbefore', hc⟩
      rw [← Bool.not_eq_true, htext', hcursor']
      intro hnear
      have hnear' := slotNear_of_lengthened hd hc (keyed_after hk hs).head?_ne_power hnear
      rw [← htext, ← hlength, ← hcursor, hfar] at hnear'
      cases hnear'
  | @parentheses kind s hslot hkind hstop =>
      -- in front of the cursor there is the parenthesis, and no digit
      obtain ⟨front, back, ht, hstop', -⟩ :=
        exists_fillSimple_parentheses (List.mem_of_mem_head? hslot) hkind [c]
      have hfront : u ++ [d] = front ++ ['('] :=
        (List.append_inj ((List.append_cons ..).symm.trans (htext.symm.trans ht)) (by omega)).1
      obtain ⟨rfl, -⟩ := List.cons.inj (List.append_inj' hfront rfl).2
      exact absurd hd (by decide)
  | named hopen hactive hfound hans =>
      rw [hcursor, hlength] at hfound
      exact steady_of_lengthened hk hc htext hplace hd hopen hactive hfound (.inl hans)
  | number hopen hactive hfound hblank hstop =>
      rw [hcursor, hlength] at hfound hstop
      exact steady_of_lengthened hk hc htext hplace hd hopen hactive hfound (.inr ⟨hblank, hstop⟩)

/-! ### Digits that go astray -/

/-- A digit goes away from the cursor: to a blank, or to a place that takes digits from then on. -/
def Strays (b b' : Buffer) : Prop :=
  b'.text.count blankSymbol < b.text.count blankSymbol ∨ b'.Steady ∧ b'.cursor ≠ b.cursor + 1

theorem strays_fillSimple (h : ¬b.TakesDigit) {kind : SlotKind} {s : Span}
    (hslot : (slots b.text).head? = some (.simple kind s)) : b.Strays (b.fillSimple s [c]) := by
  have hmem := List.mem_of_mem_head? hslot
  by_cases hkind : kind = .circular ∨ kind = .inverse
  · obtain ⟨front, back, htext, hstop, hfill⟩ := exists_fillSimple_parentheses hmem hkind [c]
    obtain ⟨hsteady, hcursor⟩ := steady_between_parentheses hk hc htext
    rw [hfill]
    refine .inr ⟨hsteady, fun hsame => h (.parentheses hslot hkind ?_)⟩
    omega
  · exact .inl (count_fillSimple hmem hkind hc)

omit hk in
theorem strays_blank {f : FractionSpan} {half : Half} (hf : f ∈ fractions b.text)
    (hblank : f.half half = [blankSymbol]) (e : FractionEdit) :
    b.Strays ((b.withFraction e).splice (f.halfStart half) (f.halfStop half) [c]) := by
  have hlt : f.halfStart half < f.halfStop half := by
    rw [FractionSpan.halfStop, hblank]
    exact Nat.lt_succ_self _
  have hgap : Gap (b.withFraction e).text (f.halfStart half) (f.halfStop half) :=
    gap_of_half hf hblank
  exact .inl (count_splice_gap hgap hlt hc)

/-- The number in the half with the focus takes the digit. -/
theorem strays_number (h : ¬b.TakesDigit) {f : FractionSpan}
    (hopen : ∃ g ∈ fractions b.text, g.hasBlank = true) (hactive : b.fraction.active = true)
    (hfound : findFraction? b.text (some b.cursor) = some f)
    (hblank : f.half b.fraction.focus ≠ [blankSymbol]) (hans : f.half b.fraction.focus ≠ ansName) :
    b.Strays (b.splice (f.halfStop b.fraction.focus) (f.halfStop b.fraction.focus) [c]) := by
  have hf := mem_fractions_of_findFraction? hfound
  obtain ⟨u, d, v, htext, hd, hstop⟩ := exists_digit_of_half hf hblank hans
  have hlength : (u ++ [d]).length = u.length + 1 := List.length_append
  have hplace : (u ++ [d]).length ∈ boundaries b.text := by
    rw [hlength, ← hstop]
    exact FractionSpan.halfStop_mem_boundaries hf _
  have hfound' := FractionSpan.findFraction?_halfStop hf b.fraction.focus
  obtain ⟨-, -, hcursor⟩ := splice_digit hk hc htext hplace
  rw [hlength] at hcursor
  rw [hstop] at hfound' ⊢
  refine .inr ⟨?_, fun hsame => h (.number hopen hactive hfound hblank ?_)⟩
  · have hsteady := steady_of_lengthened hk hc htext hplace hd hopen hactive hfound'
      (.inr ⟨hblank, hstop⟩)
    rwa [hlength] at hsteady
  · omega

/-- A place that takes no digit loses each of them. -/
theorem strays_insert (h : ¬b.TakesDigit) : b.Strays (b.insert [c]) := by
  have hnear : slotNear b.text b.cursor = true := by
    by_contra hfar
    exact h (.apart (by simpa using hfar))
  rw [insert_plain hc, if_pos hnear, fill?_plain hc]
  cases hslot : (slots b.text).head? with
  | none =>
      rw [slotNear, List.head?_eq_none_iff.1 hslot] at hnear
      cases hnear
  | some slot =>
      cases slot with
      | simple kind s => exact strays_fillSimple hk hc h hslot
      | fraction f =>
          have hmem := List.mem_of_mem_head? hslot
          have hopen : ∃ g ∈ fractions b.text, g.hasBlank = true :=
            ⟨f, fraction_mem_slots_iff.1 hmem⟩
          dsimp only
          rcases fractionToFill_spec hmem with ⟨hactive, hfound⟩ | ⟨hidle, hf, hblank⟩
          · rw [fillFraction?_of_active hactive _ hc]
            split
            · exact strays_blank hc (mem_fractions_of_findFraction? hfound) ‹_› b.fraction
            · split
              · exact absurd (.named hopen hactive hfound ‹_›) h
              · exact strays_number hk hc h hopen hactive hfound ‹_› ‹_›
          · rw [fillFraction?, if_pos hblank, hidle, if_neg Bool.false_ne_true]
            exact strays_blank hc hf hblank _

end keyed

end Buffer
end PocketCalculator
