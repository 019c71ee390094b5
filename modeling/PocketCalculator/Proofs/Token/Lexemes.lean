import PocketCalculator.Proofs.Token.Acceptance
import PocketCalculator.Proofs.Token.Steps
import PocketCalculator.Proofs.Unit.Keyed

/-! # The texts of expressions

A text can be written as tokens when it is put together of lexemes: blanks, digits, points, the
symbols of one character and the words.  The scanner accepts these texts and no others, and what it
returns spells the text without its blanks.

The order in which the scanner tries heads, numbers and characters does not show in the language,
because lexemes put together are found again as the units of the text (`units_flatten_of_lasting`),
and a character at which the scanner stops is such a unit. -/

namespace PocketCalculator

/-! ### Lexemes -/

/-- The symbols of one character. -/
def loneSymbols : Text :=
  ['+', '-', '×', '÷', '*', '/', '(', ')', blankSymbol, rootSymbol, '²', '³', '!', '%']

/-- The symbols of several characters. -/
def words : List Text :=
  [['⁻', '¹'], ['×', '1', '0', '^'], ['e', '^'], ['l', 'o', 'g'], ['l', 'n'], ['a', 'n', 's'],
    ['s', 'i', 'n', '('], ['c', 'o', 's', '('], ['t', 'a', 'n', '('],
    ['s', 'i', 'n', '⁻', '¹', '('], ['c', 'o', 's', '⁻', '¹', '('], ['t', 'a', 'n', '⁻', '¹', '(']]

/-- The pieces that the text of an expression is made of. -/
inductive Lexeme : Text → Prop where
  | blank {c} (h : isBlank c = true) : Lexeme [c]
  | digit {c} (h : isDecimalDigit c = true) : Lexeme [c]
  | point : Lexeme ['.']
  | symbol {c} (h : c ∈ loneSymbols) : Lexeme [c]
  | word {w} (h : w ∈ words) : Lexeme w

/-- A text that is put together of lexemes. -/
def Spelled (t : Text) : Prop :=
  ∃ us : List Text, t = us.flatten ∧ ∀ u ∈ us, Lexeme u

theorem mem_words_iff {w : Text} : w ∈ words ↔ ∃ head : Head, w = head.text := by
  have key : ∀ g ∈ Head.all, g.text ∈ words := by decide
  have key' : ∀ w ∈ words, w ∈ Head.all.map Head.text := by decide
  constructor
  · intro h
    obtain ⟨head, -, rfl⟩ := List.mem_map.1 (key' w h)
    exact ⟨head, rfl⟩
  · rintro ⟨head, rfl⟩
    exact key head head.mem_all

theorem mem_loneSymbols_iff {c : Char} : c ∈ loneSymbols ↔ (Token.ofChar? c).isSome = true := by
  have key : loneSymbols.all (fun c => (Token.ofChar? c).isSome) = true := by decide
  have key' : ∀ s ∈ Token.characters, s.text ∈ loneSymbols.map ([·]) := by decide
  constructor
  · exact List.all_eq_true.1 key c
  · intro h
    obtain ⟨s, hs⟩ := Option.isSome_iff_exists.1 h
    have hmem := key' s (Token.mem_characters_of_ofChar? hs)
    rw [Token.text_of_ofChar? hs] at hmem
    obtain ⟨d, hd, he⟩ := List.mem_map.1 hmem
    cases he
    exact hd

theorem Lexeme.numeral {c : Char} (h : isNumeralChar c = true) : Lexeme [c] := by
  rw [isNumeralChar, Bool.or_eq_true, beq_iff_eq] at h
  rcases h with h | rfl
  · exact .digit h
  · exact .point

theorem lexeme_iff {u : Text} : Lexeme u ↔ (∃ head : Head, u = head.text) ∨
    ∃ c, u = [c] ∧
      (isBlank c = true ∨ isNumeralChar c = true ∨ (Token.ofChar? c).isSome = true) := by
  constructor
  · intro h
    cases h with
    | blank h => exact .inr ⟨_, rfl, .inl h⟩
    | digit h => exact .inr ⟨_, rfl, .inr (.inl (by rw [isNumeralChar, h, Bool.true_or]))⟩
    | point => exact .inr ⟨_, rfl, .inr (.inl (by decide))⟩
    | symbol h => exact .inr ⟨_, rfl, .inr (.inr (mem_loneSymbols_iff.1 h))⟩
    | word h => exact .inl (mem_words_iff.1 h)
  · rintro (⟨head, rfl⟩ | ⟨c, rfl, h | h | h⟩)
    · exact .word (mem_words_iff.2 ⟨head, rfl⟩)
    · exact .blank h
    · exact .numeral h
    · exact .symbol (mem_loneSymbols_iff.2 h)

theorem lexeme_of_mem_keyUnits {u : Text} (h : u ∈ keyUnits) : Lexeme u := by
  have key : keyChars.all (fun c => isNumeralChar c || (Token.ofChar? c).isSome) = true := by
    decide
  rcases mem_keyUnits_iff.1 h with ⟨c, hc, rfl⟩ | ⟨head, rfl⟩
  · have hsymbol := List.all_eq_true.1 key c hc
    rw [Bool.or_eq_true] at hsymbol
    exact lexeme_iff.2 (.inr ⟨c, rfl, .inr hsymbol⟩)
  · exact lexeme_iff.2 (.inl ⟨head, rfl⟩)

theorem Lexeme.lasting {u : Text} (h : Lexeme u) : Lasting u := by
  rcases lexeme_iff.1 h with h | ⟨c, rfl, hc⟩
  · exact .inl h
  · refine .inr ⟨c, rfl, ?_⟩
    rcases hc with hc | hc | hc
    · refine ⟨?_, fun hi => absurd hi (not_mem_headInitials_of_isBlank hc)⟩
      rintro rfl
      exact absurd hc (by decide)
    · refine ⟨?_, fun hi => absurd hi (not_mem_headInitials_of_numeral hc)⟩
      rintro rfl
      exact absurd hc (by decide)
    · have key : loneSymbols.all (fun c => c ≠ '^' ∧ (c ∈ headInitials → c = '×')) = true := by
        decide
      exact of_decide_eq_true (List.all_eq_true.1 key c (mem_loneSymbols_iff.2 hc))

/-! ### Spelled texts -/

theorem Spelled.append {t u : Text} (ht : Spelled t) (hu : Spelled u) : Spelled (t ++ u) := by
  obtain ⟨ts, rfl, hts⟩ := ht
  obtain ⟨us, rfl, hus⟩ := hu
  refine ⟨ts ++ us, List.flatten_append.symm, fun w hw => ?_⟩
  rcases List.mem_append.1 hw with hw | hw
  · exact hts w hw
  · exact hus w hw

theorem Lexeme.spelled {u : Text} (h : Lexeme u) : Spelled u := by
  refine ⟨[u], List.flatten_singleton.symm, fun w hw => ?_⟩
  rwa [List.mem_singleton.1 hw]

theorem Spelled.lexeme_of_mem_units {t u : Text} (h : Spelled t) (hu : u ∈ units t) : Lexeme u := by
  obtain ⟨us, rfl, hus⟩ := h
  rw [units_flatten_of_lasting fun w hw => (hus w hw).lasting] at hu
  exact hus u hu

theorem Numeral.spelled (n : Numeral) : Spelled n.text := by
  have hbody : Spelled n.body := by
    refine ⟨n.body.map ([·]), ?_, fun u hu => ?_⟩
    · rw [← List.flatMap_def, List.flatMap_singleton']
    · obtain ⟨c, hc, rfl⟩ := List.mem_map.1 hu
      exact .numeral (n.isNumeralChar_of_mem c hc)
  rw [text]
  split
  · exact Spelled.append (t := ['-']) (Lexeme.symbol (by decide)).spelled hbody
  · exact hbody

namespace Token

variable {previous : Option Token} {t : Text} {ts : List Token}

theorem Step.spelled {piece rest : Text} {tokens : List Token}
    (h : Step previous piece tokens rest) : Spelled piece := by
  cases h with
  | blank hb => exact (Lexeme.blank hb).spelled
  | head g => exact (Lexeme.word (mem_words_iff.2 ⟨g, rfl⟩)).spelled
  | number n => exact n.spelled
  | char hc => exact (Lexeme.symbol (mem_loneSymbols_iff.2 (Option.isSome_of_mem hc))).spelled

theorem Scanned.spelled {rest : Text} (h : Scanned previous t ts rest) : Spelled t := by
  induction h with
  | nil => exact ⟨[], rfl, fun u hu => absurd hu List.not_mem_nil⟩
  | snoc h hs ih => exact ih.append hs.spelled

theorem exists_ofChars_iff : (∃ ts, ofChars previous t = .ok ts) ↔ Spelled t := by
  constructor
  · rintro ⟨ts, h⟩
    exact (scanned_iff.2 h).spelled
  · intro h
    cases hscan : ofChars previous t with
    | ok ts => exact ⟨ts, rfl⟩
    | error fault =>
        obtain ⟨c, -, hc, hb, hn, hs⟩ := exists_of_ofChars_error hscan
        rcases lexeme_iff.1 (h.lexeme_of_mem_units hc) with ⟨head, hhead⟩ | ⟨d, hd, hlexeme⟩
        · have key : ∀ g ∈ Head.all, 1 < g.text.length := by decide
          have hlen := key head head.mem_all
          rw [← hhead] at hlen
          exact absurd hlen (Nat.lt_irrefl 1)
        · cases hd
          simp [hb, hn, hs] at hlexeme

theorem exists_scan_iff : (∃ ts, scan t = .ok ts) ↔ Spelled t := by
  simp only [scan_eq_ok_iff, scanned_iff, exists_ofChars_iff]

theorem exists_scan_of_keyed (h : Keyed t) : ∃ tokens, scan t = .ok tokens :=
  exists_scan_iff.2
    ⟨units t, (flatten_units t).symm, fun _ hu => lexeme_of_mem_keyUnits (h hu)⟩

/-! ### Numbers -/

/-- A minus behind these tokens, in front of a number, is its sign. -/
def TakesSign (ts : List Token) : Prop :=
  ∀ s ∈ ts.getLast?, s.isOperator = true ∨ s = opening ∨ s = root ∨ ∃ m, s = marker m

theorem takesSign_iff : TakesSign ts ↔ signAllowed ts.getLast? = true := by
  rw [TakesSign, signAllowed]
  cases ts.getLast? with
  | none => simp
  | some s => cases s <;> simp [isOperator, precedesSign]

/-- A number in its text, behind the text `left` and in front of the text `right`: its digits and
points are all that stand there, and a minus to the left of them is its sign where an operand is
asked for. -/
structure Standing (n : Numeral) (front : List Token) (left right : Text) : Prop where
  left_end : ∀ c ∈ left.getLast?, isNumeralChar c = false
  right_start : ∀ c ∈ right.head?, isNumeralChar c = false
  sign_iff : n.negative = true ↔ ∃ u us, left = u ++ ['-'] ∧ scan u = .ok us ∧ TakesSign us
  /-- What stands to the left of the number and of its sign gives the tokens in front of it. -/
  scan_left : ∃ u, left = u ++ (if n.negative then ['-'] else []) ∧ scan u = .ok front

/-- A number that has been read off stands in its text. -/
theorem Scanned.standing {front : List Token} {n : Numeral} {u v : Text}
    (hu : Scanned none u front (n.text ++ v))
    (hs : n.negative = true → signAllowed front.getLast? = true)
    (hr : ∀ c ∈ v.head?, isNumeralChar c = false) :
    Standing n front (u ++ if n.negative then ['-'] else []) v := by
  have hfront : scan u = .ok front := scan_eq_ok_iff.2 (hu.of_append (u := []))
  refine ⟨?_, hr, ?_, ⟨u, rfl, hfront⟩⟩
  · cases hn : n.negative with
    | true =>
        intro c hc
        rw [if_pos rfl, List.getLast?_concat] at hc
        cases hc
        decide
    | false =>
        rw [if_neg Bool.false_ne_true, List.append_nil]
        exact hu.left_of_number hn
  · cases hn : n.negative with
    | true => exact ⟨fun _ => ⟨u, front, rfl, hfront, takesSign_iff.2 (hs hn)⟩, fun _ => rfl⟩
    | false =>
        rw [if_neg Bool.false_ne_true, List.append_nil]
        refine ⟨fun hfalse => absurd hfalse Bool.false_ne_true, ?_⟩
        rintro ⟨w, us, rfl, hw, hsign⟩
        -- the scanner would have taken such a minus for a sign
        obtain ⟨us', hus', hnot⟩ := hu.exists_of_minus hn
        rw [scan_eq_ok_iff.2 hus'] at hw
        cases hw
        rw [Option.or_none, takesSign_iff.1 hsign] at hnot
        cases hnot

theorem exists_standing {front back : List Token} {n : Numeral}
    (h : scan t = .ok (front ++ number n :: back)) :
    ∃ left right, t = left ++ n.body ++ right ∧ Standing n front left right := by
  obtain ⟨u, v, rfl, hu, hs, hr⟩ := (scan_eq_ok_iff.1 h).exists_number rfl
  rw [List.append_nil] at hu hr
  rw [Option.or_none] at hs
  refine ⟨_, v, ?_, hu.standing hs hr⟩
  rw [Numeral.text]
  split <;> simp

/-- The scanner accepts the texts that are spelled with lexemes and refuses every other text as an
invalid expression.  The tokens of a text spell it, blanks left out, and each number among them is
a whole run of digits and points, with a sign where a minus in front of it is one. -/
theorem scan_spelled (t : Text) :
    ((∃ ts, scan t = .ok ts) ↔ Spelled t) ∧
    (∀ failure, scan t = .error failure →
      failure.fault.kind = .invalidExpression ∧ failure.fault.code = "3011") ∧
    ∀ ts, scan t = .ok ts →
      join ts = t.filter (fun c => !isBlank c) ∧
      ∀ front n back, ts = front ++ number n :: back →
        ∃ left right, t = left ++ n.body ++ right ∧ Standing n front left right := by
  refine ⟨exists_scan_iff, ?_, ?_⟩
  · intro failure h
    rw [scan] at h
    cases hscan : ofChars none t with
    | ok ts =>
        rw [hscan] at h
        cases h
    | error fault =>
        rw [hscan] at h
        cases h
        obtain ⟨c, rfl, -⟩ := exists_of_ofChars_error hscan
        exact ⟨rfl, rfl⟩
  · intro ts h
    refine ⟨(scan_eq_ok_iff.1 h).join_eq, ?_⟩
    rintro front n back rfl
    exact exists_standing h

end Token
end PocketCalculator
