import PocketCalculator.Proofs.Buffer.Atomic
import PocketCalculator.Proofs.Buffer.Values
import PocketCalculator.Proofs.Token.Signs

/-! # The sign of the number at the cursor

Whether a minus is a sign is decided twice: in a buffer by the characters in front of the minus, and
in the scanner by the token in front of it.  On keyed texts the two agree (`endsWithValue_eq`,
`signToggled_of_signed`, `signToggled_of_unsigned`), so a change of sign puts a minus in front of a
number that has no sign, and takes the minus away that is the sign of a number.

The number at the cursor becomes the opposite number, and a second change of sign undoes the first,
where an operand is asked for and no other minus stands in front of the number and its sign
(`Buffer.AtNumber.toggle_operand`).  Behind a value, where a product is implied, the new minus
subtracts (`Buffer.AtNumber.toggle_behind_value`), and a minus in front of the sign becomes the sign
when the sign goes (`Buffer.AtNumber.toggle_behind_minus`).  `Buffer.toggleSign_number` says so of
all buffers that the keys lead to, and `Buffer.toggleSign_number_differs` shows the last two cases.
-/

namespace PocketCalculator.Buffer

variable {b : Buffer} {t u front left right back : Text} {l r ts us : List Token} {n : Numeral}

/-! ### Values at the end of a text -/

theorem endsWithValue_of_numeral (hk : Keyed t) {c : Char} (hc : c ∈ t.getLast?)
    (hn : isNumeralChar c = true) : endsWithValue t = true := by
  have hplain := hk.plain_of_numeral (List.mem_of_getLast? hc) hn
  rw [endsWithValue, Option.mem_def.1 hc, Option.any_some, endsValue_of_plain hplain, Bool.true_or,
    Bool.true_or]

theorem endsWithValue_text (hk : Keyed (t ++ n.text)) : endsWithValue (t ++ n.text) = true := by
  obtain ⟨c, hc⟩ := Option.ne_none_iff_exists'.1 fun h =>
    n.body_ne_nil (List.getLast?_eq_none_iff.1 h)
  have htext : n.text.getLast? = some c := by
    rw [Numeral.text]
    split
    · rw [List.getLast?_cons_of_ne_nil n.body_ne_nil, hc]
    · exact hc
  have hlast := List.getLast?_append_of_ne_nil t n.text_ne_nil
  exact endsWithValue_of_numeral hk (hlast.trans htext)
    (n.isNumeralChar_of_mem c (List.mem_of_getLast? hc))

theorem endsWithValue_head (t : Text) (g : Head) :
    endsWithValue (t ++ g.text) = !Token.signAllowed g.tokens.getLast? := by
  have hlast := List.getLast?_append_of_ne_nil t g.text_ne_nil
  cases g with
  | circular f =>
      have hc : (f.text ++ ['(']).getLast? = some '(' := List.getLast?_concat
      exact endsWithValue_of_getLast? (hlast.trans hc) (by decide) (by decide)
  | marker m =>
      cases m with
      | log => exact endsWithValue_of_getLast? (c := 'g') hlast (by decide) (by decide)
      | ln => exact endsWithValue_of_getLast? (c := 'n') hlast (by decide) (by decide)
      | tenPower => exact endsWithValue_of_getLast? (c := '^') hlast (by decide) (by decide)
      | exp => exact endsWithValue_of_getLast? (c := '^') hlast (by decide) (by decide)
  | ans =>
      have hans : Text.endsWith (t ++ ansName) ansName = true :=
        Text.endsWith_iff.2 (List.suffix_append _ _)
      show endsWithValue (t ++ ansName) = true
      rw [endsWithValue, hans, Bool.or_true]
  | reciprocal =>
      have hinverse : Text.endsWith (t ++ inverseMark) inverseMark = true :=
        Text.endsWith_iff.2 (List.suffix_append _ _)
      show endsWithValue (t ++ inverseMark) = true
      rw [endsWithValue, hinverse, Bool.or_true, Bool.true_or]

/-- A keyed text ends with a value when no sign may follow its last token. -/
theorem endsWithValue_eq (hk : Keyed t) (h : Token.scan t = .ok ts) :
    endsWithValue t = !Token.signAllowed ts.getLast? := by
  cases Token.scan_eq_ok_iff.1 h with
  | nil => rfl
  | @snoc t ts piece tokens _ _ hs =>
      cases hs with
      | @blank c _ hb =>
          rw [hk.isBlank_eq_false (List.mem_append_right t List.mem_cons_self)] at hb
          cases hb
      | number n =>
          rw [List.getLast?_concat]
          exact endsWithValue_text hk
      | @char c s _ hc =>
          have key : Token.characters.all (fun s => s.text.all fun c =>
              c ≠ '¹' ∧ c ≠ 's' ∧ endsValue c = !s.precedesSign) = true := by
            decide
          have hs := List.all_eq_true.1 key s (Token.mem_characters_of_ofChar? hc)
          rw [Token.text_of_ofChar? hc] at hs
          obtain ⟨h₁, h₂, hs⟩ := of_decide_eq_true (List.all_eq_true.1 hs c List.mem_cons_self)
          rw [List.getLast?_concat, endsWithValue_of_getLast? List.getLast?_concat h₁ h₂, hs]
          rfl
      | head g =>
          rw [List.getLast?_append_of_ne_nil ts (by cases g <;> simp [Head.tokens])]
          exact endsWithValue_head t g

/-! ### The text in front of a number -/

/-- The text in front of a number with the sign of the number taken away, or put in. -/
def signToggled (front : Text) : Text :=
  if front.getLast? = some '-' && !endsWithValue front.dropLast then front.dropLast
  else front ++ ['-']

/-- A minus that the scanner takes for a sign is taken away. -/
theorem signToggled_of_signed (hk : Keyed u) (hu : Token.scan u = .ok us)
    (hs : Token.TakesSign us) : signToggled (u ++ ['-']) = u := by
  rw [signToggled, List.getLast?_concat, List.dropLast_concat, endsWithValue_eq hk hu,
    Token.takesSign_iff.1 hs]
  rfl

/-- A minus that the scanner does not take for a sign stays, and a sign is put in. -/
theorem signToggled_of_unsigned (hk : Keyed front)
    (hnot : ∀ u us, front = u ++ ['-'] → Token.scan u = .ok us → ¬Token.TakesSign us) :
    signToggled front = front ++ ['-'] := by
  rw [signToggled, if_neg]
  intro hsign
  simp only [Bool.and_eq_true, decide_eq_true_eq, Bool.not_eq_true'] at hsign
  obtain ⟨u, rfl⟩ := List.getLast?_eq_some_iff.1 hsign.1
  have hku : Keyed u := ((opens_cons (by decide) []).keyed hk).1
  obtain ⟨us, hus⟩ := Token.exists_scan_of_keyed hku
  refine hnot u us rfl hus (Token.takesSign_iff.2 ?_)
  rw [List.dropLast_concat, endsWithValue_eq hku hus, Bool.not_eq_false'] at hsign
  exact hsign.2

theorem keyed_signToggled (hk : Keyed front) : Keyed (signToggled front) := by
  rw [signToggled]
  split
  · rename_i hsign
    rw [Bool.and_eq_true, decide_eq_true_eq] at hsign
    obtain ⟨u, rfl⟩ := List.getLast?_eq_some_iff.1 hsign.1
    rw [List.dropLast_concat]
    exact ((opens_cons (by decide) []).keyed hk).1
  · exact hk.append ((keyed_cons_iff (by decide)).2 ⟨by decide, keyed_nil⟩)

theorem left_end_signToggled (hk : Keyed front) :
    ∀ c ∈ (signToggled front).getLast?, isNumeralChar c = false := by
  intro c hc
  rw [signToggled] at hc
  split at hc
  · rename_i hsign
    rw [Bool.and_eq_true, decide_eq_true_eq, Bool.not_eq_true'] at hsign
    obtain ⟨u, rfl⟩ := List.getLast?_eq_some_iff.1 hsign.1
    rw [List.dropLast_concat] at hc hsign
    rw [Bool.eq_false_iff]
    intro hn
    have hvalue := endsWithValue_of_numeral ((opens_cons (by decide) []).keyed hk).1 hc hn
    rw [hsign.2] at hvalue
    cases hvalue
  · rw [List.getLast?_concat] at hc
    cases hc
    decide

/-! ### The number at the cursor -/

/-- The digits and points that the cursor touches. -/
def numberAt (b : Buffer) : Text :=
  (b.before.reverse.takeWhile isNumeralChar).reverse ++ b.after.takeWhile isNumeralChar

/-- The cursor touches a run of digits and points, of which `left` is in front of it and `right`
behind it, and the run stands between the texts `front` and `back`. -/
structure AtNumber (b : Buffer) (front left right back : Text) : Prop where
  before_eq : b.before = front ++ left
  after_eq : b.after = right ++ back
  run_ne_nil : left ++ right ≠ []
  isNumeralChar_of_mem : ∀ c ∈ left ++ right, isNumeralChar c = true
  left_end : ∀ c ∈ front.getLast?, isNumeralChar c = false
  right_start : ∀ c ∈ back.head?, isNumeralChar c = false

theorem exists_atNumber (h : b.numberAt ≠ []) :
    ∃ front left right back, b.AtNumber front left right back ∧ b.numberAt = left ++ right := by
  refine ⟨(b.before.reverse.dropWhile isNumeralChar).reverse,
    (b.before.reverse.takeWhile isNumeralChar).reverse, b.after.takeWhile isNumeralChar,
    b.after.dropWhile isNumeralChar, ⟨?_, ?_, h, ?_, ?_, Text.head?_dropWhile _ _⟩,
    rfl⟩
  · rw [← List.reverse_append, List.takeWhile_append_dropWhile, List.reverse_reverse]
  · exact List.takeWhile_append_dropWhile.symm
  · intro c hc
    rcases List.mem_append.1 hc with hc | hc
    · exact List.mem_takeWhile_imp (List.mem_reverse.1 hc)
    · exact List.mem_takeWhile_imp hc
  · rw [List.getLast?_reverse]
    exact Text.head?_dropWhile _ _

namespace AtNumber

theorem text_eq (h : b.AtNumber front left right back) :
    b.text = front ++ (left ++ (right ++ back)) := by
  rw [← b.before_append_after, h.before_eq, h.after_eq, List.append_assoc]

theorem cursor_eq (h : b.AtNumber front left right back) (hs : b.Settled) :
    b.cursor = (front ++ left).length := by
  rw [← length_before hs, h.before_eq]

theorem keyed (h : b.AtNumber front left right back) (hk : Keyed b.text) (hs : b.Settled) :
    Keyed front ∧ Keyed left ∧ Keyed (right ++ back) := by
  have hbefore := keyed_before hk hs
  rw [h.before_eq] at hbefore
  obtain ⟨hfront, hleft⟩ := (opens_numerals fun c hc =>
    h.isNumeralChar_of_mem c (List.mem_append_left right hc)).keyed hbefore
  exact ⟨hfront, hleft, h.after_eq ▸ keyed_after hk hs⟩

theorem toggleSign_eq (h : b.AtNumber front left right back) (hs : b.Settled) :
    b.toggleSign = b.replace (signToggled front ++ (left ++ (right ++ back)))
      ((signToggled front ++ left).length : Nat) := by
  have hleft : b.before.reverse.takeWhile isNumeralChar = left.reverse := by
    rw [h.before_eq, List.reverse_append]
    refine (Text.takeWhile_append (fun c hc => ?_) fun c hc => ?_).1
    · exact h.isNumeralChar_of_mem c (List.mem_append_left right (List.mem_reverse.1 hc))
    · rw [List.head?_reverse] at hc
      exact h.left_end c hc
  have hright : b.after.takeWhile isNumeralChar = right := by
    rw [h.after_eq]
    exact (Text.takeWhile_append (fun c hc =>
      h.isNumeralChar_of_mem c (List.mem_append_right left hc)) h.right_start).1
  have hlength : left.length + right.length ≠ 0 := by
    rw [← List.length_append]
    exact fun h0 => h.run_ne_nil (List.length_eq_zero_iff.1 h0)
  have hcursor := h.cursor_eq hs
  rw [List.length_append] at hcursor
  have hstart : b.cursor - left.length = front.length := by omega
  rw [toggleSign, hleft, hright, List.length_reverse]
  dsimp only
  rw [if_neg hlength, hstart, take_of_before h.before_eq, drop_of_before h.before_eq, h.after_eq,
    signToggled]
  split
  · rename_i hsign
    rw [Bool.and_eq_true, decide_eq_true_eq] at hsign
    obtain ⟨u, rfl⟩ := List.getLast?_eq_some_iff.1 hsign.1
    rw [List.length_append, List.length_singleton] at hcursor
    rw [List.dropLast_concat, List.length_append]
    congr 1
    omega
  · rw [List.append_assoc front, List.singleton_append, List.length_append, List.length_append,
      List.length_singleton]
    congr 1
    omega

/-- After a change of sign, the cursor is at the same place of the number. -/
theorem toggled (h : b.AtNumber front left right back) (hk : Keyed b.text) (hs : b.Settled) :
    b.toggleSign.AtNumber (signToggled front) left right back := by
  obtain ⟨hfront, hleft, hright⟩ := h.keyed hk hs
  have hne : signToggled front ++ (left ++ (right ++ back)) ≠ [] := by
    rw [← List.append_assoc left]
    exact List.append_ne_nil_of_right_ne_nil _ (List.append_ne_nil_of_left_ne_nil h.run_ne_nil _)
  have htext : b.toggleSign.text = (signToggled front ++ left) ++ (right ++ back) := by
    rw [h.toggleSign_eq hs, text_replace _ hne, List.append_assoc]
  have hcursor : b.toggleSign.cursor = (signToggled front ++ left).length := by
    rw [h.toggleSign_eq hs, replace, if_neg hne, ← List.append_assoc]
    exact snap_of_mem_boundaries
      (((keyed_signToggled hfront).append hleft).length_mem_boundaries hright)
  refine ⟨?_, ?_, h.run_ne_nil, h.isNumeralChar_of_mem, left_end_signToggled hfront, h.right_start⟩
  · rw [before, hcursor, htext, List.take_left]
  · rw [after, hcursor, htext, List.drop_left]

/-- The number at the cursor among the tokens of the text. -/
theorem exists_tokens (h : b.AtNumber front left right back) (hk : Keyed b.text)
    (hs : b.Settled) : ∃ l n r, Token.scan b.text = .ok (l ++ .number n :: r) ∧
      n.body = left ++ right ∧ Token.Standing n l front back ∧
      Token.ofChars (some (.number n)) back = .ok r := by
  obtain ⟨hfront, hleft, hright⟩ := h.keyed hk hs
  have hrun : Keyed ((left ++ right) ++ back) := by
    rw [List.append_assoc]
    exact hleft.append hright
  have hstanding := Token.exists_standing_at h.run_ne_nil h.isNumeralChar_of_mem h.left_end
    h.right_start hfront hrun
  rwa [h.text_eq, ← List.append_assoc left]

/-- The tokens after a change of sign, when it is known what stands in front of the number. -/
theorem scan_toggled (h : b.AtNumber front left right back) (hk : Keyed b.text) (hs : b.Settled)
    {m : Numeral} (hm : m.body = left ++ right) (hr : Token.ofChars (some (.number m)) back = .ok r)
    (hfront : ∀ n l, Token.Standing n l (signToggled front) back →
      n.negative = m.negative ∧ l = ts) :
    Token.scan b.toggleSign.text = .ok (ts ++ .number m :: r) := by
  obtain ⟨l, n, r', hscan, hn, hstanding, hr'⟩ :=
    (h.toggled hk hs).exists_tokens (keyed_toggleSign hk hs) (hs.toggleSign)
  obtain ⟨hsign, rfl⟩ := hfront n l hstanding
  obtain rfl := Numeral.ext_of hsign (hn.trans hm.symm)
  rw [hr] at hr'
  cases hr'
  exact hscan

/-! ### One change of sign, and another one -/

/-- Where an operand is asked for and no other minus comes to stand for the sign, the number becomes
its opposite, and a second change of sign undoes the first. -/
theorem toggle_operand (h : b.AtNumber front left right back) (hk : Keyed b.text) (hs : b.Settled)
    (hn : n.body = left ++ right) (hr : Token.ofChars (some (.number n)) back = .ok r)
    (hstanding : Token.Standing n l front back) (hsign : Token.TakesSign l)
    (hother : ¬Token.EndsWithSign l) :
    Token.scan b.toggleSign.text = .ok (l ++ .number n.opposite :: r) ∧
      b.toggleSign.toggleSign.text = b.text ∧ b.toggleSign.toggleSign.cursor = b.cursor := by
  obtain ⟨hfront, -⟩ := h.keyed hk hs
  have hr' : Token.ofChars (some (.number n.opposite)) back = .ok r := by
    rw [Token.ofChars_behind_number n.opposite n, hr]
  obtain ⟨hback, htoggled⟩ : signToggled (signToggled front) = front ∧
      ∀ m ts, Token.Standing m ts (signToggled front) back →
        m.negative = n.opposite.negative ∧ ts = l := by
    cases hneg : n.negative with
    | false =>
        have hnot := fun u us hu hus hsign' =>
          Bool.eq_false_iff.1 hneg (hstanding.sign_iff.2 ⟨u, us, hu, hus, hsign'⟩)
        obtain ⟨-, hl⟩ := hstanding.of_unsigned hnot
        rw [signToggled_of_unsigned hfront hnot]
        refine ⟨signToggled_of_signed hfront hl hsign, fun m ts hm => ?_⟩
        obtain ⟨hm, rfl⟩ := hm.of_signed rfl hl hsign
        exact ⟨by rw [hm, Numeral.opposite, hneg]; rfl, rfl⟩
    | true =>
        obtain ⟨u, us, rfl, hus, hsign'⟩ := hstanding.sign_iff.1 hneg
        obtain ⟨-, rfl⟩ := hstanding.of_signed rfl hus hsign'
        have hku : Keyed u := ((opens_cons (by decide) []).keyed hfront).1
        rw [signToggled_of_signed hku hus hsign]
        -- what stands in front of the sign is no minus that could be another one
        have hnot (v vs) (hv : u = v ++ ['-']) (hvs : Token.scan v = .ok vs) :
            ¬Token.TakesSign vs := by
          intro hvsign
          rw [hv, Token.scan_minus hvs] at hus
          cases hus
          exact hother ⟨vs, rfl, hvsign⟩
        refine ⟨signToggled_of_unsigned hku hnot, fun m ts hm => ?_⟩
        obtain ⟨hm, hts⟩ := hm.of_unsigned hnot
        rw [hus] at hts
        exact ⟨by rw [hm, Numeral.opposite, hneg]; rfl, (Except.ok.inj hts).symm⟩
  have hkeyed := keyed_toggleSign hk hs
  have hagain := (h.toggled hk hs).toggled hkeyed hs.toggleSign
  rw [hback] at hagain
  refine ⟨h.scan_toggled hk hs hn hr' htoggled, ?_, ?_⟩
  · rw [hagain.text_eq, h.text_eq]
  · rw [hagain.cursor_eq hs.toggleSign.toggleSign, h.cursor_eq hs]

/-- Behind a value, the minus that is put in subtracts the number. -/
theorem toggle_behind_value (h : b.AtNumber front left right back) (hk : Keyed b.text)
    (hs : b.Settled) (hn : n.body = left ++ right)
    (hr : Token.ofChars (some (.number n)) back = .ok r)
    (hstanding : Token.Standing n l front back) (hsign : ¬Token.TakesSign l) :
    Token.scan b.toggleSign.text = .ok (l ++ .additive .minus :: .number n :: r) ∧
      Token.scan b.toggleSign.toggleSign.text =
        .ok (l ++ .additive .minus :: .number n.opposite :: r) ∧
      b.toggleSign.toggleSign.toggleSign.text = b.toggleSign.text ∧
      b.toggleSign.toggleSign.toggleSign.cursor = b.toggleSign.cursor := by
  obtain ⟨hfront, -⟩ := h.keyed hk hs
  have hnot : ∀ u us, front = u ++ ['-'] → Token.scan u = .ok us → ¬Token.TakesSign us := by
    rintro u us rfl hus hsign'
    obtain ⟨-, rfl⟩ := hstanding.of_signed rfl hus hsign'
    exact hsign hsign'
  obtain ⟨hneg, hl⟩ := hstanding.of_unsigned hnot
  have hminus (m ts) (hm : Token.Standing m ts (signToggled front) back) :
      m.negative = n.negative ∧ ts = l ++ [.additive .minus] := by
    rw [signToggled_of_unsigned hfront hnot] at hm
    obtain ⟨hm, hts⟩ := hm.of_unsigned fun u us hu hus => by
      obtain ⟨rfl, -⟩ := List.append_inj' hu rfl
      rw [hl] at hus
      cases hus
      exact hsign
    rw [Token.scan_minus hl] at hts
    exact ⟨hm.trans hneg.symm, (Except.ok.inj hts).symm⟩
  have hscan := h.scan_toggled hk hs hn hr hminus
  -- behind the minus an operand is asked for
  have hkeyed := keyed_toggleSign hk hs
  have htoggled := h.toggled hk hs
  obtain ⟨ts, m, r', hscan', hm, hstanding', hr'⟩ := htoggled.exists_tokens hkeyed hs.toggleSign
  obtain ⟨hmneg, rfl⟩ := hminus m ts hstanding'
  obtain rfl := Numeral.ext_of hmneg (hm.trans hn.symm)
  have hother : ¬Token.EndsWithSign (l ++ [.additive .minus]) := by
    rintro ⟨us, hus, hsign'⟩
    obtain ⟨rfl, -⟩ := List.append_inj' hus rfl
    exact hsign hsign'
  have hagain := htoggled.toggle_operand hkeyed hs.toggleSign hn hr hstanding'
    (Token.takesSign_concat_minus l) hother
  simp only [List.append_assoc, List.singleton_append] at hscan hagain
  exact ⟨hscan, hagain⟩

/-- The minus in front of a sign becomes the sign when the sign goes, and goes next. -/
theorem toggle_behind_minus (h : b.AtNumber front left right back) (hk : Keyed b.text)
    (hs : b.Settled) (hn : n.body = left ++ right)
    (hr : Token.ofChars (some (.number n)) back = .ok r)
    (hstanding : Token.Standing n (us ++ [.additive .minus]) front back)
    (hsign : Token.TakesSign us) :
    Token.scan b.toggleSign.text = .ok (us ++ .number n :: r) ∧
      b.text.length = b.toggleSign.toggleSign.text.length + 2 := by
  obtain ⟨hfront, -⟩ := h.keyed hk hs
  have hneg : n.negative = true := by
    by_contra hneg
    have hnot := fun u us hu hus hsign' =>
      hneg (hstanding.sign_iff.2 ⟨u, us, hu, hus, hsign'⟩)
    obtain ⟨-, hl⟩ := hstanding.of_unsigned hnot
    obtain ⟨v, hv, hvs⟩ := Token.exists_of_scan_minus (fun c => hfront.isBlank_eq_false) hl
    exact hnot v us hv hvs hsign
  obtain ⟨u, ts, rfl, hts, hsign'⟩ := hstanding.sign_iff.1 hneg
  obtain ⟨-, rfl⟩ := hstanding.of_signed rfl hts hsign'
  have hku : Keyed u := ((opens_cons (by decide) []).keyed hfront).1
  obtain ⟨v, rfl, hvs⟩ := Token.exists_of_scan_minus (fun c => hku.isBlank_eq_false) hts
  have hkv : Keyed v := ((opens_cons (by decide) []).keyed hku).1
  have hfirst := signToggled_of_signed hku hts hsign'
  refine ⟨h.scan_toggled hk hs hn hr fun m ts hm => ?_, ?_⟩
  · rw [hfirst] at hm
    obtain ⟨hm, rfl⟩ := hm.of_signed rfl hvs hsign
    exact ⟨hm.trans hneg.symm, rfl⟩
  · have hagain := (h.toggled hk hs).toggled (keyed_toggleSign hk hs) hs.toggleSign
    rw [hfirst, signToggled_of_signed hkv hvs hsign] at hagain
    rw [hagain.text_eq, h.text_eq]
    simp only [List.length_append, List.length_singleton]
    omega

end AtNumber

/-- After any sequence of edits of a cleared buffer by keys, with the cursor at a run of digits and
points, the run is the body of a number among the tokens.  A change of sign gives the number its
opposite and leaves all other tokens, and a second one restores the text and the cursor, where an
operand is asked for and no other minus would be a sign there.  Behind a value it puts in a minus
that subtracts, and only from then on it goes back and forth.  Where another minus would be a sign,
that one goes instead. -/
theorem toggleSign_number (edits : List Edit) (h : ∀ e ∈ edits, e.IsKeyed)
    (hn : (edits.foldl edited cleared).numberAt ≠ []) :
    let b := edits.foldl edited cleared
    ∃ front back l n r, b.text = front ++ b.numberAt ++ back ∧
      front.length ≤ b.cursor ∧ b.cursor ≤ (front ++ b.numberAt).length ∧
      Token.scan b.text = .ok (l ++ .number n :: r) ∧ n.body = b.numberAt ∧
      Token.Standing n l front back ∧
      (Token.TakesSign l → ¬Token.EndsWithSign l →
        Token.scan b.toggleSign.text = .ok (l ++ .number n.opposite :: r) ∧
        b.toggleSign.toggleSign.text = b.text ∧ b.toggleSign.toggleSign.cursor = b.cursor) ∧
      (¬Token.TakesSign l →
        Token.scan b.toggleSign.text = .ok (l ++ .additive .minus :: .number n :: r) ∧
        Token.scan b.toggleSign.toggleSign.text =
          .ok (l ++ .additive .minus :: .number n.opposite :: r) ∧
        b.toggleSign.toggleSign.toggleSign.text = b.toggleSign.text ∧
        b.toggleSign.toggleSign.toggleSign.cursor = b.toggleSign.cursor) ∧
      ∀ us, l = us ++ [.additive .minus] → Token.TakesSign us →
        Token.scan b.toggleSign.text = .ok (us ++ .number n :: r) ∧
        b.text.length = b.toggleSign.toggleSign.text.length + 2 := by
  intro b
  have hs : b.Settled := settled_foldl_edited settled_cleared edits
  have hk : Keyed b.text := keyed_foldl_edited keyed_cleared settled_cleared h
  have hn : b.numberAt ≠ [] := hn
  clear_value b
  obtain ⟨front, left, right, back, hat, hrun⟩ := exists_atNumber hn
  obtain ⟨l, n, r, hscan, hbody, hstanding, hr⟩ := hat.exists_tokens hk hs
  have hcursor := hat.cursor_eq hs
  rw [List.length_append] at hcursor
  refine ⟨front, back, l, n, r, ?_, ?_, ?_, hscan, hbody.trans hrun.symm, hstanding,
    hat.toggle_operand hk hs hbody hr hstanding, hat.toggle_behind_value hk hs hbody hr hstanding,
    ?_⟩
  · rw [hat.text_eq, hrun]
    simp only [List.append_assoc]
  · omega
  · rw [hrun, List.length_append, List.length_append]
    omega
  · rintro us rfl hsign
    exact hat.toggle_behind_minus hk hs hbody hr hstanding hsign

/-- The sign of a number under a root goes on and off. -/
theorem toggleSign_number_root :
    let edits : List Edit := [.insert Template.root.text, .insert ['7']]
    let b := edits.foldl edited cleared
    (∀ e ∈ edits, e.IsKeyed) ∧ b.numberAt = ['7'] ∧
      (∃ n : Numeral, n.body = ['7'] ∧ Token.scan b.text = .ok [.root, .number n] ∧
        Token.scan b.toggleSign.text = .ok [.root, .number n.opposite]) ∧
      b.toggleSign.toggleSign.text = b.text ∧ b.toggleSign.toggleSign.cursor = b.cursor := by
  intro edits b
  have hkeys : ∀ e ∈ edits, e.IsKeyed := by decide
  obtain ⟨hnumber, hroot⟩ : b.numberAt = ['7'] ∧ (Token.scan b.text).toOption =
      some [.root, .number ⟨false, ['7'], List.cons_ne_nil _ _, by decide⟩] := by
    decide +kernel
  have hne : b.numberAt ≠ [] := by
    rw [hnumber]
    exact List.cons_ne_nil _ _
  obtain ⟨front, back, l, n, r, -, -, -, hscan, hbody, -, hoperand, -⟩ :=
    toggleSign_number edits hkeys hne
  -- the root is the only token in front of the number
  obtain ⟨rfl, rfl⟩ : l = [.root] ∧ r = [] := by
    have htokens := Except.ok.inj (hscan.symm.trans (eq_ok_of_toOption hroot))
    cases l with
    | nil => cases htokens
    | cons s l =>
        obtain ⟨rfl, hnumber⟩ := List.cons.inj htokens
        cases l with
        | nil => exact ⟨rfl, (List.cons.inj hnumber).2⟩
        | cons s l => simp at hnumber
  have hother : ¬Token.EndsWithSign [.root] := by
    rintro ⟨us, hus, -⟩
    have hlast := congrArg List.getLast? hus
    rw [List.getLast?_concat] at hlast
    cases hlast
  obtain ⟨htoggled, htext, hcursor⟩ := hoperand (Token.takesSign_iff.2 rfl) hother
  exact ⟨hkeys, hnumber, ⟨n, hbody.trans hnumber, hscan, htoggled⟩, htext, hcursor⟩

/-- Behind the last result the minus subtracts, and a second one comes to it; behind two other
minuses the sign goes, and one of the others next. -/
theorem toggleSign_number_differs :
    let behindValue : List Edit := [.insert ansName, .insert ['5']]
    let behindMinus : List Edit :=
      [.insert ['5'], .insert ['-'], .insert ['-'], .insert ['-'], .insert ['3']]
    let b := behindValue.foldl edited cleared
    let c := behindMinus.foldl edited cleared
    (∀ e ∈ behindValue ++ behindMinus, e.IsKeyed) ∧
      b.numberAt = ['5'] ∧ b.text = "ans5".toList ∧ b.toggleSign.text = "ans-5".toList ∧
      b.toggleSign.toggleSign.text = "ans--5".toList ∧
      c.numberAt = ['3'] ∧ c.text = "5---3".toList ∧ c.toggleSign.text = "5--3".toList ∧
      c.toggleSign.toggleSign.text = "5-3".toList := by
  decide +kernel

end PocketCalculator.Buffer
