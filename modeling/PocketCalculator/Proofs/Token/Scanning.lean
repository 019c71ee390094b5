import PocketCalculator.Token.Product
import PocketCalculator.Proofs.Number.Reading
import PocketCalculator.Proofs.Symbol.Heads

/-! # Steps of the scanner

What the scanner does at the beginning of a text, case by case: blanks are skipped, a head gives its
tokens, a numeral goes as far as its characters do, and an operator behind a number is a token of
its own.  Blanks at either end of a text make no difference to its tokens (`ofChars_strip`). -/

namespace PocketCalculator

/-! ### Characters of numerals -/

theorem not_mem_headInitials_of_numeral {c : Char} (h : isNumeralChar c = true) :
    c ∉ headInitials := by
  have key : headInitials.all (fun c => isNumeralChar c = false) = true := by decide
  intro hc
  rw [of_decide_eq_true (List.all_eq_true.1 key c hc)] at h
  cases h

theorem isBlank_eq_false_of_numeral {c : Char} (h : isNumeralChar c = true) :
    isBlank c = false := by
  rw [isNumeralChar, Bool.or_eq_true, beq_iff_eq] at h
  rcases h with h | rfl
  · exact isBlank_eq_false_of_digit h
  · decide

/-! ### Numerals -/

namespace Numeral

theorem readRun?_append (n : Numeral) {tail : Text}
    (ht : ∀ c ∈ tail.head?, isNumeralChar c = false) :
    readRun? n.negative (n.body ++ tail) = some (n, tail) := by
  obtain ⟨h₁, h₂⟩ := Text.takeWhile_append n.isNumeralChar_of_mem ht
  rw [readRun?, h₁, h₂, ofRun?, dif_pos ⟨n.body_ne_nil, n.body_all⟩]
  rfl

theorem read?_append (n : Numeral) {signed : Bool} {tail : Text}
    (hs : n.negative = true → signed = true) (ht : ∀ c ∈ tail.head?, isNumeralChar c = false) :
    read? signed (n.text ++ tail) = some (n, tail) := by
  have hrun := n.readRun?_append ht
  cases hn : n.negative with
  | true =>
      rw [hn] at hrun
      rw [text, hn, if_pos rfl, List.cons_append, read?, hs hn, if_pos rfl, hrun]
  | false =>
      rw [hn] at hrun
      rw [text, hn, if_neg Bool.false_ne_true, read?, hrun]
      intro t ht
      obtain ⟨c, body, hb⟩ := List.exists_cons_of_ne_nil n.body_ne_nil
      rw [hb, List.cons_append, List.cons.injEq] at ht
      have hc := n.isNumeralChar_of_mem c (hb ▸ List.mem_cons_self)
      rw [ht.1] at hc
      exact absurd hc (by decide)

theorem readRun?_eq_some {negative : Bool} {t rest : Text} {n : Numeral}
    (h : readRun? negative t = some (n, rest)) :
    n.negative = negative ∧ t = n.body ++ rest ∧ ∀ c ∈ rest.head?, isNumeralChar c = false := by
  obtain ⟨m, hm, he⟩ := Option.map_eq_some_iff.1 h
  cases he
  obtain ⟨hn, hb⟩ := text_of_ofRun? hm
  rw [hb]
  exact ⟨hn, List.takeWhile_append_dropWhile.symm, Text.head?_dropWhile isNumeralChar t⟩

theorem read?_eq_some {signed : Bool} {t rest : Text} {n : Numeral}
    (h : read? signed t = some (n, rest)) : t = n.text ++ rest := by
  unfold read? at h
  split at h
  · split at h
    · obtain ⟨hn, ht, -⟩ := readRun?_eq_some h
      rw [text, hn, if_pos rfl, List.cons_append, ht]
    · cases h
  · obtain ⟨hn, ht, -⟩ := readRun?_eq_some h
    rw [text, hn, if_neg Bool.false_ne_true, ht]

/-- What is read off as a numeral has a sign only where one is allowed, and no more of it follows. -/
theorem sign_of_read? {signed : Bool} {t rest : Text} {n : Numeral}
    (h : read? signed t = some (n, rest)) :
    (n.negative = true → signed = true) ∧ ∀ c ∈ rest.head?, isNumeralChar c = false := by
  unfold read? at h
  split at h
  · split at h
    · rename_i hs
      obtain ⟨-, -, hr⟩ := readRun?_eq_some h
      exact ⟨fun _ => hs, hr⟩
    · cases h
  · obtain ⟨hn, -, hr⟩ := readRun?_eq_some h
    refine ⟨fun hneg => ?_, hr⟩
    cases hn.symm.trans hneg

theorem readRun?_eq_none_iff {negative : Bool} {t : Text} :
    readRun? negative t = none ↔ ∀ c ∈ t.head?, isNumeralChar c = false := by
  cases t with
  | nil => simp [readRun?, ofRun?]
  | cons c t =>
      cases hc : isNumeralChar c with
      | true =>
          have hrun : (c :: t).takeWhile isNumeralChar ≠ [] := by
            simp [hc]
          rw [readRun?, ofRun?, dif_pos ⟨hrun, List.all_takeWhile⟩]
          simp [hc]
      | false =>
          have hrun : (c :: t).takeWhile isNumeralChar = [] := by
            simp [hc]
          rw [readRun?, hrun, ofRun?, dif_neg fun h => h.1 rfl]
          simp [hc]

theorem read?_cons_of_ne {c : Char} (hc : c ≠ '-') (signed : Bool) (rest : Text) :
    read? signed (c :: rest) = readRun? false (c :: rest) := by
  rw [read?]
  exact fun _ e => hc (List.cons.inj e).1

/-- No numeral begins with a character that is none of a number, unless it is a sign with a number
behind it. -/
theorem read?_cons_eq_none_iff {signed : Bool} {c : Char} (hc : isNumeralChar c = false)
    (rest : Text) : read? signed (c :: rest) = none ↔
      (c = '-' → signed = true → ∀ d ∈ rest.head?, isNumeralChar d = false) := by
  by_cases hm : c = '-'
  · subst hm
    cases signed with
    | false => simp [read?]
    | true =>
        rw [read?, if_pos rfl, readRun?_eq_none_iff]
        simp
  · rw [read?_cons_of_ne hm, readRun?_eq_none_iff]
    simp [hc, hm]

theorem read?_eq_none {c : Char} (h : isNumeralChar c = false) (rest : Text) :
    read? false (c :: rest) = none :=
  (read?_cons_eq_none_iff h rest).2 fun _ hs => absurd hs Bool.false_ne_true

theorem isNumeralChar_of_read?_none {signed : Bool} {c : Char} {rest : Text}
    (h : read? signed (c :: rest) = none) : isNumeralChar c = false := by
  by_cases hc : c = '-'
  · subst hc
    decide
  · rw [read?_cons_of_ne hc, readRun?_eq_none_iff] at h
    exact h c rfl

theorem exists_head?_text (n : Numeral) (hn : n.negative = false) :
    ∃ c, n.text.head? = some c ∧ isNumeralChar c = true := by
  obtain ⟨c, body, hb⟩ := List.exists_cons_of_ne_nil n.body_ne_nil
  rw [text, hn, if_neg Bool.false_ne_true, hb]
  exact ⟨c, rfl, n.isNumeralChar_of_mem c (hb ▸ List.mem_cons_self)⟩

end Numeral

/-! ### Steps -/

namespace Token

variable {previous : Option Token} {t tail rest : Text}

theorem ofChars_nil (previous : Option Token) : ofChars previous [] = .ok [] := by
  unfold ofChars
  rfl

theorem ofChars_blank {c : Char} (h : isBlank c = true) (previous : Option Token) (rest : Text) :
    ofChars previous (c :: rest) = ofChars previous rest := by
  conv => lhs; unfold ofChars
  exact if_pos h

theorem ofChars_head {c : Char} {head : Head} (hb : isBlank c = false)
    (h : Head.read? (c :: rest) = some (head, tail)) (previous : Option Token) :
    ofChars previous (c :: rest) =
      (ofChars head.tokens.getLast? tail).map (head.tokens ++ ·) := by
  conv => lhs; unfold ofChars
  rw [if_neg (by simp [hb])]
  split
  · rename_i head' tail' h'
    rw [h] at h'
    cases h'
    cases ofChars head.tokens.getLast? tail <;> rfl
  · rename_i h'
    rw [h] at h'
    cases h'

theorem ofChars_number {c : Char} {n : Numeral} (hb : isBlank c = false)
    (hh : Head.read? (c :: rest) = none)
    (h : Numeral.read? (signAllowed previous) (c :: rest) = some (n, tail)) :
    ofChars previous (c :: rest) = (ofChars (some (number n)) tail).map (number n :: ·) := by
  conv => lhs; unfold ofChars
  rw [if_neg (by simp [hb])]
  split
  · rename_i head' tail' h'
    rw [hh] at h'
    cases h'
  · split
    · rename_i n' tail' h'
      rw [h] at h'
      cases h'
      cases ofChars (some (number n)) tail <;> rfl
    · rename_i h'
      rw [h] at h'
      cases h'

theorem ofChars_char {c : Char} (hb : isBlank c = false) (hh : Head.read? (c :: rest) = none)
    (hn : Numeral.read? (signAllowed previous) (c :: rest) = none) :
    ofChars previous (c :: rest) =
      match ofChar? c with
      | some s => (ofChars (some s) rest).map (s :: ·)
      | none => .error (.unexpectedToken [c]) := by
  conv => lhs; unfold ofChars
  rw [if_neg (by simp [hb])]
  split
  · rename_i head' tail' h'
    rw [hh] at h'
    cases h'
  · split
    · rename_i n' tail' h'
      rw [hn] at h'
      cases h'
    · cases ofChar? c with
      | none => rfl
      | some s => cases ofChars (some s) rest <;> rfl

theorem isBlank_of_mem_numeral (n : Numeral) {c : Char} (h : c ∈ n.text) :
    isBlank c = false ∧ c ∉ headInitials := by
  rcases Numeral.eq_or_mem_of_mem_text h with rfl | hc
  · decide
  · have hnum := n.isNumeralChar_of_mem c hc
    exact ⟨isBlank_eq_false_of_numeral hnum, not_mem_headInitials_of_numeral hnum⟩

/-- A numeral is one token, where its sign is allowed and no more of it follows. -/
theorem ofChars_numeral (n : Numeral) (hs : n.negative = true → signAllowed previous = true)
    (ht : ∀ c ∈ tail.head?, isNumeralChar c = false) :
    ofChars previous (n.text ++ tail) = (ofChars (some (number n)) tail).map (number n :: ·) := by
  have hread := n.read?_append hs ht
  obtain ⟨c, u, hu⟩ := List.exists_cons_of_ne_nil n.text_ne_nil
  obtain ⟨hb, hi⟩ := isBlank_of_mem_numeral n (hu ▸ List.mem_cons_self)
  rw [hu, List.cons_append] at hread ⊢
  exact ofChars_number hb (Head.read?_cons_eq_none _ hi) hread

/-! ### What stands before a text -/

theorem ofChars_congr {q r : Option Token} (h : signAllowed q = signAllowed r) (t : Text) :
    ofChars q t = ofChars r t := by
  induction t with
  | nil => rw [ofChars_nil, ofChars_nil]
  | cons c t ih =>
      cases hb : isBlank c with
      | true => rw [ofChars_blank hb, ofChars_blank hb, ih]
      | false =>
          cases hh : Head.read? (c :: t) with
          | some head => rw [ofChars_head hb hh, ofChars_head hb hh]
          | none =>
              cases hn : Numeral.read? (signAllowed q) (c :: t) with
              | some n => rw [ofChars_number hb hh hn, ofChars_number hb hh (h ▸ hn)]
              | none => rw [ofChars_char hb hh hn, ofChars_char hb hh (h ▸ hn)]

theorem ofChars_behind_number (n m : Numeral) (t : Text) :
    ofChars (some (number n)) t = ofChars (some (number m)) t :=
  ofChars_congr (q := some (number n)) (r := some (number m)) rfl t

/-- A sign that belongs to no number is an operator. -/
theorem ofChars_additive {previous : Option Token} (op : Additive) {t : Text}
    (h : Numeral.read? (signAllowed previous) (op.symbol :: t) = none) :
    ofChars previous (op.symbol :: t) =
      (ofChars (some (additive op)) t).map (additive op :: ·) := by
  have hb : isBlank op.symbol = false := by
    cases op <;> decide
  have hi : op.symbol ∉ headInitials := by
    cases op <;> decide
  have hc : ofChar? op.symbol = some (additive op) := by
    cases op <;> rfl
  rw [ofChars_char hb (Head.read?_cons_eq_none t hi) h, hc]

/-! ### Blanks around a text -/

theorem ofChars_stripLeft (previous : Option Token) (t : Text) :
    ofChars previous (Text.stripLeft t) = ofChars previous t := by
  rw [Text.stripLeft]
  induction t with
  | nil => rfl
  | cons c t ih =>
      cases hb : isBlank c with
      | true => rw [List.dropWhile_cons_of_pos hb, ih, ofChars_blank hb]
      | false => rw [List.dropWhile_cons_of_neg (by simp [hb])]

end Token

namespace Numeral

theorem readRun?_append_blanks {blanks : Text} (hb : ∀ c ∈ blanks, isBlank c = true)
    (negative : Bool) (t : Text) :
    readRun? negative (t ++ blanks) = (readRun? negative t).map fun r => (r.1, r.2 ++ blanks) := by
  have hsplit : (t ++ blanks).takeWhile isNumeralChar = t.takeWhile isNumeralChar ∧
      (t ++ blanks).dropWhile isNumeralChar = t.dropWhile isNumeralChar ++ blanks := by
    induction t with
    | nil =>
        cases blanks with
        | nil => exact ⟨rfl, rfl⟩
        | cons c blanks =>
            have hc : ¬isNumeralChar c = true := fun h => by
              have := isBlank_eq_false_of_numeral h
              rw [hb c List.mem_cons_self] at this
              cases this
            rw [List.nil_append, List.takeWhile_cons_of_neg hc, List.dropWhile_cons_of_neg hc]
            exact ⟨rfl, rfl⟩
    | cons c t ih =>
        obtain ⟨h₁, h₂⟩ := ih
        rw [List.cons_append, List.takeWhile_cons, List.takeWhile_cons, List.dropWhile_cons,
          List.dropWhile_cons, h₁, h₂]
        constructor
        · rfl
        · split <;> rfl
  rw [readRun?, readRun?, hsplit.1, hsplit.2, Option.map_map]
  rfl

theorem read?_append_blanks {blanks : Text} (hb : ∀ c ∈ blanks, isBlank c = true) {t : Text}
    (hne : t ≠ []) (signed : Bool) :
    read? signed (t ++ blanks) = (read? signed t).map fun r => (r.1, r.2 ++ blanks) := by
  obtain ⟨c, t, rfl⟩ := List.exists_cons_of_ne_nil hne
  by_cases hc : c = '-'
  · subst hc
    rw [List.cons_append, read?, read?]
    split
    · exact readRun?_append_blanks hb true t
    · rfl
  · rw [List.cons_append, read?_cons_of_ne hc, read?_cons_of_ne hc]
    exact readRun?_append_blanks hb false (c :: t)

end Numeral

namespace Token

theorem ofChars_blanks {blanks : Text} (hb : ∀ c ∈ blanks, isBlank c = true)
    (previous : Option Token) : ofChars previous blanks = .ok [] := by
  induction blanks with
  | nil => exact ofChars_nil previous
  | cons c blanks ih =>
      rw [ofChars_blank (hb c List.mem_cons_self)]
      exact ih fun d hd => hb d (List.mem_cons_of_mem c hd)

theorem ofChars_append_blanks {blanks : Text} (hb : ∀ c ∈ blanks, isBlank c = true)
    (previous : Option Token) (t : Text) :
    ofChars previous (t ++ blanks) = ofChars previous t := by
  have head {c : Char} {rest : Text} : Head.read? (c :: (rest ++ blanks)) =
      (Head.read? (c :: rest)).map fun r => (r.1, r.2 ++ blanks) :=
    Head.read?_append_blanks hb (c :: rest)
  have number {c : Char} {rest : Text} (signed : Bool) :
      Numeral.read? signed (c :: (rest ++ blanks)) =
        (Numeral.read? signed (c :: rest)).map fun r => (r.1, r.2 ++ blanks) :=
    Numeral.read?_append_blanks hb (List.cons_ne_nil c rest) signed
  have no_head {c : Char} {rest : Text} (h : Head.read? (c :: rest) = none) :
      Head.read? (c :: (rest ++ blanks)) = none := by
    rw [head, h, Option.map_none]
  have no_number {c : Char} {rest : Text} {signed : Bool}
      (h : Numeral.read? signed (c :: rest) = none) :
      Numeral.read? signed (c :: (rest ++ blanks)) = none := by
    rw [number, h, Option.map_none]
  fun_induction ofChars previous t with
  | case1 previous => exact ofChars_blanks hb previous
  | case2 previous c rest h ih => rw [List.cons_append, ofChars_blank h, ih]
  | case3 previous c rest h g tail hh ih =>
      have hh' : Head.read? (c :: (rest ++ blanks)) = some (g, tail ++ blanks) := by
        rw [head, hh, Option.map_some]
      rw [List.cons_append, ofChars_head (Bool.eq_false_iff.2 h) hh', ih]
      cases ofChars g.tokens.getLast? tail <;> rfl
  | case4 previous c rest h hh n tail hn ih =>
      have hn' : Numeral.read? (signAllowed previous) (c :: (rest ++ blanks)) =
          some (n, tail ++ blanks) := by
        rw [number, hn, Option.map_some]
      rw [List.cons_append, ofChars_number (Bool.eq_false_iff.2 h) (no_head hh) hn', ih]
      cases ofChars (some (.number n)) tail <;> rfl
  | case5 previous c rest h hh hn s hs ih =>
      rw [List.cons_append, ofChars_char (Bool.eq_false_iff.2 h) (no_head hh) (no_number hn), hs]
      dsimp only
      rw [ih]
      cases ofChars (some s) rest <;> rfl
  | case6 previous c rest h hh hn hs =>
      rw [List.cons_append, ofChars_char (Bool.eq_false_iff.2 h) (no_head hh) (no_number hn), hs]

/-- Blanks at either end of a text make no difference to its tokens. -/
theorem ofChars_strip (previous : Option Token) (t : Text) :
    ofChars previous t.strip = ofChars previous t := by
  rw [Text.strip, Text.stripRight]
  have hsplit : t.stripLeft =
      (t.stripLeft.reverse.dropWhile isBlank).reverse ++
        (t.stripLeft.reverse.takeWhile isBlank).reverse := by
    rw [← List.reverse_append, List.takeWhile_append_dropWhile, List.reverse_reverse]
  have hblank : ∀ c ∈ (t.stripLeft.reverse.takeWhile isBlank).reverse, isBlank c = true := by
    intro c hc
    exact List.all_eq_true.1 List.all_takeWhile c (List.mem_reverse.1 hc)
  rw [← ofChars_stripLeft previous t]
  conv => rhs; rw [hsplit]
  exact (ofChars_append_blanks hblank previous _).symm

end Token
end PocketCalculator
