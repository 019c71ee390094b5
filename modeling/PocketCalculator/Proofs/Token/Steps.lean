import Mathlib.Data.List.Basic
import PocketCalculator.Expr.Parser
import PocketCalculator.Proofs.Token.Scanning

/-! # A text, read off step by step

The scanner reads off a piece of a text at a time: a blank, a head, a number with its sign, or a
character that is a token of its own.  `Step` lists these pieces with the tokens that each of them
gives and with what must hold of the text behind it, and `Scanned` puts steps one behind the other.
By `scanned_iff` this is what the scanner computes, so what holds of all tokens of a text is shown by
an induction with a single step in it.

A step asks at most for the next character, so the text behind it may be cut anywhere
(`Step.of_append`).  This is how a number is found again in its text (`Scanned.exists_number`). -/

namespace PocketCalculator.Token

/-! ### Characters -/

theorem mem_characters_of_ofChar? {c : Char} {s : Token} (h : ofChar? c = some s) :
    s ∈ characters :=
  List.mem_of_find?_eq_some h

theorem not_isBlank_of_ofChar? {c : Char} {s : Token} (h : ofChar? c = some s) :
    isBlank c = false ∧ isNumeralChar c = false := by
  have key : characters.all (fun s => s.text.all fun c =>
      isBlank c = false ∧ isNumeralChar c = false) = true := by decide
  have hs := List.all_eq_true.1 key s (mem_characters_of_ofChar? h)
  rw [text_of_ofChar? h] at hs
  exact of_decide_eq_true (List.all_eq_true.1 hs c List.mem_cons_self)

/-! ### Steps -/

/-- A piece that is read off a text behind the token `previous`, the tokens that it gives, and the
text that follows it. -/
inductive Step (previous : Option Token) : Text → List Token → Text → Prop where
  | blank {c rest} (hb : isBlank c = true) : Step previous [c] [] rest
  | head (g : Head) (rest) : Step previous g.text g.tokens rest
  /-- A number goes as far as its characters do, and has a sign only where one is allowed. -/
  | number {rest} (n : Numeral) (hs : n.negative = true → signAllowed previous = true)
      (hr : ∀ c ∈ rest.head?, isNumeralChar c = false) : Step previous n.text [number n] rest
  /-- A character that begins no head, and is no sign of a number. -/
  | char {c s rest} (hc : ofChar? c = some s) (hh : Head.read? (c :: rest) = none)
      (hs : c = '-' → signAllowed previous = true → ∀ d ∈ rest.head?, isNumeralChar d = false) :
      Step previous [c] [s] rest

/-- A text that is read off behind the token `previous` and in front of `rest`, and its tokens. -/
inductive Scanned (previous : Option Token) : Text → List Token → Text → Prop where
  | nil {rest} : Scanned previous [] [] rest
  | snoc {t ts piece tokens rest} (h : Scanned previous t ts (piece ++ rest))
      (hs : Step (ts.getLast?.or previous) piece tokens rest) :
      Scanned previous (t ++ piece) (ts ++ tokens) rest

variable {previous : Option Token} {piece t rest u v : Text} {ts tokens front back : List Token}

theorem getLast?_tokens (g : Head) (previous : Option Token) :
    g.tokens.getLast?.or previous = g.tokens.getLast? := by
  cases g <;> rfl

theorem Step.ofChars_eq (h : Step previous piece tokens rest) :
    ofChars previous (piece ++ rest) =
      (ofChars (tokens.getLast?.or previous) rest).map (tokens ++ ·) := by
  cases h with
  | blank hb =>
      show ofChars previous (_ :: rest) = (ofChars previous rest).map id
      rw [ofChars_blank hb]
      cases ofChars previous rest <;> rfl
  | head g =>
      obtain ⟨c, w, hw⟩ := List.exists_cons_of_ne_nil g.text_ne_nil
      have hread := g.read?_text_append rest
      rw [getLast?_tokens, hw, List.cons_append]
      rw [hw, List.cons_append] at hread
      exact ofChars_head (Head.isBlank_of_mem_text (hw ▸ List.mem_cons_self)) hread previous
  | number n hs hr => exact ofChars_numeral n hs hr
  | @char c s _ hc hh hs =>
      obtain ⟨hb, hnum⟩ := not_isBlank_of_ofChar? hc
      show ofChars previous (c :: rest) = _
      rw [ofChars_char hb hh ((Numeral.read?_cons_eq_none_iff hnum rest).2 hs), hc]
      rfl

theorem getLast?_append_or (ts us : List Token) (previous : Option Token) :
    (ts ++ us).getLast?.or previous = us.getLast?.or (ts.getLast?.or previous) := by
  rw [List.getLast?_append, Option.or_assoc]

theorem Scanned.ofChars_eq (h : Scanned previous t ts rest) :
    ofChars previous (t ++ rest) = (ofChars (ts.getLast?.or previous) rest).map (ts ++ ·) := by
  induction h with
  | @nil rest =>
      show ofChars previous rest = (ofChars previous rest).map id
      cases ofChars previous rest <;> rfl
  | @snoc t ts piece tokens rest h hs ih =>
      rw [List.append_assoc, ih, hs.ofChars_eq, ← getLast?_append_or]
      cases ofChars ((ts ++ tokens).getLast?.or previous) rest with
      | error fault => rfl
      | ok more => exact congrArg Except.ok (List.append_assoc ts tokens more).symm

theorem Scanned.cons (h : Step previous piece tokens (t ++ rest))
    (hs : Scanned (tokens.getLast?.or previous) t ts rest) :
    Scanned previous (piece ++ t) (tokens ++ ts) rest := by
  induction hs with
  | nil =>
      rw [List.append_nil, List.append_nil]
      exact @Scanned.snoc previous [] [] piece tokens _ .nil h
  | snoc hs hstep ih =>
      rw [List.append_assoc] at h
      rw [← getLast?_append_or] at hstep
      rw [← List.append_assoc, ← List.append_assoc]
      exact .snoc (ih h) hstep

/-- The scanner reads off one piece after the other. -/
theorem scanned_iff : Scanned previous t ts [] ↔ ofChars previous t = .ok ts := by
  constructor
  · intro h
    have ht := h.ofChars_eq
    rw [List.append_nil, ofChars_nil] at ht
    rw [ht]
    exact congrArg Except.ok (List.append_nil ts)
  · intro h
    fun_induction ofChars previous t generalizing ts with
    | case1 previous =>
        cases h
        exact .nil
    | case2 previous c rest hb ih => exact .cons (.blank hb) (ih h)
    | case3 previous c rest hb g tail hh ih =>
        obtain ⟨us, hus, h⟩ := Expr.exists_of_bind_eq_ok h
        cases h
        rw [Head.read?_eq_some hh]
        refine .cons (.head g _) ?_
        rw [getLast?_tokens]
        exact ih hus
    | case4 previous c rest hb hh n tail hn ih =>
        obtain ⟨us, hus, h⟩ := Expr.exists_of_bind_eq_ok h
        cases h
        obtain ⟨hs, hr⟩ := Numeral.sign_of_read? hn
        rw [Numeral.read?_eq_some hn]
        exact .cons (.number n hs (by rwa [List.append_nil])) (ih hus)
    | case5 previous c rest hb hh hn s hc ih =>
        obtain ⟨us, hus, h⟩ := Expr.exists_of_bind_eq_ok h
        cases h
        have hs := (Numeral.read?_cons_eq_none_iff (not_isBlank_of_ofChar? hc).2 rest).1 hn
        rw [← List.append_nil rest] at hh hs
        exact .cons (.char hc hh hs) (ih hus)
    | case6 previous c rest hb hh hn hc => cases h

theorem scan_eq_ok_iff : scan t = .ok ts ↔ Scanned none t ts [] := by
  rw [scanned_iff, scan]
  cases ofChars none t with
  | ok us => simp [Except.mapError]
  | error fault => simp [Except.mapError]

/-! ### What a step takes and gives -/

theorem Step.ne_nil (h : Step previous piece tokens rest) : piece ≠ [] := by
  cases h with
  | blank | char => exact List.cons_ne_nil _ _
  | head g => exact g.text_ne_nil
  | number n => exact n.text_ne_nil

theorem Step.join_eq (h : Step previous piece tokens rest) :
    join tokens = piece.filter fun c => !isBlank c := by
  cases h with
  | blank hb => simp [join, hb]
  | head g =>
      have hjoin : join g.tokens = g.text := by
        cases g <;> simp [join, Head.tokens, Head.text, text, Suffix.text]
      rw [hjoin]
      refine (List.filter_eq_self.2 fun c hc => ?_).symm
      rw [Head.isBlank_of_mem_text hc]
      rfl
  | number n hs hr =>
      rw [join, List.flatMap_singleton, text]
      refine (List.filter_eq_self.2 fun c hc => ?_).symm
      rw [(isBlank_of_mem_numeral n hc).1]
      rfl
  | char hc hh hs => simp [join, text_of_ofChar? hc, (not_isBlank_of_ofChar? hc).1]

theorem infix_of_mem_tokens {g : Head} {s : Token} (hs : s ∈ g.tokens) : s.text <:+: g.text := by
  cases g with
  | circular f =>
      rcases List.mem_cons.1 hs with rfl | hs
      · exact (List.prefix_append _ _).isInfix
      · cases List.mem_singleton.1 hs
        exact (List.suffix_append _ _).isInfix
  | marker | ans | reciprocal =>
      cases List.mem_singleton.1 hs
      exact List.infix_rfl

theorem Step.infix_of_mem (h : Step previous piece tokens rest) {s : Token} (hs : s ∈ tokens) :
    s.text <:+: piece := by
  cases h with
  | blank hb => cases hs
  | head g => exact infix_of_mem_tokens hs
  | number n =>
      cases List.mem_singleton.1 hs
      exact List.infix_rfl
  | char hc =>
      cases List.mem_singleton.1 hs
      exact text_of_ofChar? hc ▸ List.infix_rfl

/-- A step looks no further than the next character, so what follows may be cut off anywhere. -/
theorem Step.of_append (h : Step previous piece tokens (u ++ v)) : Step previous piece tokens u := by
  have head?_mem {c : Char} (hc : c ∈ u.head?) : c ∈ (u ++ v).head? := by
    rw [List.head?_append, Option.mem_def.1 hc]
    rfl
  cases h with
  | blank hb => exact .blank hb
  | head g => exact .head g u
  | number n hs hr => exact .number n hs fun c hc => hr c (head?_mem hc)
  | @char c s _ hc hh hs =>
      refine .char hc (Head.read?_eq_none fun g hg => ?_) fun hm ha d hd => hs hm ha d (head?_mem hd)
      obtain ⟨w, hw⟩ := hg
      have hread := g.read?_text_append (w ++ v)
      rw [← List.append_assoc, hw, List.cons_append, hh] at hread
      cases hread

/-- Only a number ends with a character of a number, and then no more of it follows. -/
theorem Step.of_getLast? (h : Step previous piece tokens rest) {c : Char}
    (hc : c ∈ piece.getLast?) (hn : isNumeralChar c = true) :
    ∀ d ∈ rest.head?, isNumeralChar d = false := by
  have of_singleton {d : Char} (hd : c ∈ [d].getLast?) : c = d :=
    (Option.some.inj hd).symm
  cases h with
  | blank hb =>
      rw [← of_singleton hc, isBlank_eq_false_of_numeral hn] at hb
      cases hb
  | head g =>
      have key : ∀ g ∈ Head.all, g.text.getLast?.all (fun c => isNumeralChar c = false) = true := by
        decide
      have hlast := Head.forall_head key g
      rw [Option.mem_def.1 hc, Option.all_some] at hlast
      cases hn.symm.trans (of_decide_eq_true hlast)
  | number n hs hr => exact hr
  | char hs =>
      rw [← of_singleton hc] at hs
      cases hn.symm.trans (not_isBlank_of_ofChar? hs).2

theorem Step.of_minus (h : Step previous piece tokens rest) (hp : '-' ∈ piece.getLast?) :
    piece = ['-'] ∧ (signAllowed previous = true → ∀ d ∈ rest.head?, isNumeralChar d = false) := by
  have of_singleton {d : Char} (hd : '-' ∈ [d].getLast?) : d = '-' :=
    Option.some.inj hd
  cases h with
  | blank hb =>
      rw [of_singleton hp] at hb
      exact absurd hb (by decide)
  | head g =>
      have key : ∀ g ∈ Head.all, g.text.getLast? ≠ some '-' := by decide
      exact absurd hp (Head.forall_head key g)
  | number n hs hr =>
      -- the sign of a number stands in front of its body
      have hbody : '-' ∈ n.body := by
        rw [Numeral.text] at hp
        split at hp
        · rw [List.getLast?_cons_of_ne_nil n.body_ne_nil] at hp
          exact List.mem_of_getLast? hp
        · exact List.mem_of_getLast? hp
      exact absurd (n.isNumeralChar_of_mem '-' hbody) (by decide)
  | @char d s _ hd hh hs =>
      have hd' := of_singleton hp
      exact ⟨by rw [hd'], hs hd'⟩

/-! ### Whole texts -/

theorem Scanned.join_eq (h : Scanned previous t ts rest) :
    join ts = t.filter fun c => !isBlank c := by
  induction h with
  | nil => rfl
  | snoc h hs ih => rw [List.filter_append, ← hs.join_eq, ← ih, join, join, join, List.flatMap_append]

theorem Scanned.infix_of_mem (h : Scanned previous t ts rest) {s : Token} (hs : s ∈ ts) :
    s.text <:+: t := by
  induction h with
  | nil => cases hs
  | snoc h hstep ih =>
      rcases List.mem_append.1 hs with hs | hs
      · exact (ih hs).trans (List.prefix_append _ _).isInfix
      · exact (hstep.infix_of_mem hs).trans (List.suffix_append _ _).isInfix

/-- What follows a text may be cut off anywhere. -/
theorem Scanned.of_append (h : Scanned previous t ts (u ++ v)) : Scanned previous t ts u := by
  generalize hr : u ++ v = rest at h
  induction h generalizing u with
  | nil => exact .nil
  | @snoc t ts piece tokens rest h hs ih =>
      subst hr
      exact .snoc (ih (List.append_assoc piece u v)) hs.of_append

/-! ### Tokens of a text -/

/-- A token that the scanner may give: a number or a symbol. -/
def Written (s : Token) : Prop :=
  (∃ n, s = number n) ∨ s ∈ symbols

theorem Step.written (h : Step previous piece tokens rest) : ∀ s ∈ tokens, s.Written := by
  intro s hs
  cases h with
  | blank => cases hs
  | head g =>
      have key : ∀ g ∈ Head.all, ∀ s ∈ g.tokens, s ∈ symbols := by decide
      exact .inr (Head.forall_head key g s hs)
  | number n => exact .inl ⟨n, List.mem_singleton.1 hs⟩
  | char hc =>
      rw [List.mem_singleton.1 hs, Written, symbols, List.append_assoc]
      exact .inr (List.mem_append_left _ (mem_characters_of_ofChar? hc))

theorem Scanned.written (h : Scanned previous t ts rest) : ∀ s ∈ ts, s.Written := by
  induction h with
  | nil => exact fun s hs => absurd hs List.not_mem_nil
  | snoc h hs ih =>
      intro s hmem
      rcases List.mem_append.1 hmem with hmem | hmem
      · exact ih s hmem
      · exact hs.written s hmem

theorem Written.text_ink {s : Token} (h : s.Written) :
    s.text ≠ [] ∧ ∀ c ∈ s.text, isBlank c = false := by
  rcases h with ⟨n, rfl⟩ | h
  · exact ⟨n.text_ne_nil, fun c hc => (isBlank_of_mem_numeral n hc).1⟩
  · have key : symbols.all (fun s =>
        s.text ≠ [] ∧ s.text.all fun c => isBlank c = false) = true := by
      decide
    obtain ⟨hne, hall⟩ := of_decide_eq_true (List.all_eq_true.1 key s h)
    exact ⟨hne, fun c hc => of_decide_eq_true (List.all_eq_true.1 hall c hc)⟩

theorem Written.eq_slash {s : Token} (h : s.Written) (hs : '/' ∈ s.text) :
    s = multiplicative .slash := by
  rcases h with ⟨n, rfl⟩ | h
  · exact absurd hs (n.not_mem_text (by decide) (by decide))
  · have key : ∀ s ∈ symbols, '/' ∈ s.text → s = multiplicative .slash := by decide
    exact key s h hs

theorem not_written_other (t : Text) : ¬(other t).Written := by
  rintro (⟨n, hn⟩ | h)
  · cases hn
  · simp [symbols, characters] at h

/-! ### Numbers in their text -/

variable {n : Numeral}

/-- Among the tokens of a piece there is no number but the piece itself. -/
theorem Step.of_number (h : Step previous piece tokens rest)
    (hn : tokens = front ++ Token.number n :: back) :
    (piece = n.text ∧ front = [] ∧ back = []) ∧
      (n.negative = true → signAllowed previous = true) ∧
      ∀ c ∈ rest.head?, isNumeralChar c = false := by
  have hmem : Token.number n ∈ tokens := by
    rw [hn]
    exact List.mem_append_right front List.mem_cons_self
  cases h with
  | blank hb => cases hmem
  | head g => cases g <;> simp [Head.tokens] at hmem
  | number m hs hr =>
      cases front with
      | nil =>
          cases hn
          exact ⟨⟨rfl, rfl, rfl⟩, hs, hr⟩
      | cons s front => simp at hn
  | char hc =>
      have key : characters.all (fun s => s.isValue = false) = true := by decide
      have hs := List.all_eq_true.1 key _ (mem_characters_of_ofChar? hc)
      rw [← List.mem_singleton.1 hmem] at hs
      cases of_decide_eq_true hs

/-- A number among the tokens of a text has been read off somewhere in the text. -/
theorem Scanned.exists_number (h : Scanned previous t ts rest) (hn : ts = front ++ number n :: back) :
    ∃ u v, t = u ++ n.text ++ v ∧ Scanned previous u front (n.text ++ (v ++ rest)) ∧
      (n.negative = true → signAllowed (front.getLast?.or previous) = true) ∧
      ∀ c ∈ (v ++ rest).head?, isNumeralChar c = false := by
  induction h generalizing back with
  | nil => simp at hn
  | @snoc t ts piece tokens rest h hs ih =>
      -- the number is what the last step gives, or it has been read off before
      rcases List.append_eq_append_iff.1 hn with ⟨us, hfront, htokens⟩ | ⟨us, hts, hus⟩
      · obtain ⟨⟨rfl, rfl, rfl⟩, hnum⟩ := hs.of_number htokens
        rw [List.append_nil] at hfront
        subst hfront
        exact ⟨t, [], (List.append_nil _).symm, h, hnum⟩
      · cases us with
        | nil =>
            rw [List.nil_append] at hus
            have htokens : tokens = [] ++ number n :: back := hus.symm
            obtain ⟨⟨rfl, -, rfl⟩, hnum⟩ := hs.of_number htokens
            rw [List.append_nil] at hts
            subst hts
            exact ⟨t, [], (List.append_nil _).symm, h, hnum⟩
        | cons s us =>
            cases hus
            obtain ⟨u, v, rfl, hu, hs, hr⟩ := ih hts
            rw [← List.append_assoc v] at hu hr
            exact ⟨u, v ++ piece, List.append_assoc _ _ _, hu, hs, hr⟩

variable (hn : n.negative = false)
include hn

theorem Scanned.left_of_number (h : Scanned previous u ts (n.text ++ v)) :
    ∀ c ∈ u.getLast?, isNumeralChar c = false := by
  intro c hc
  cases h with
  | nil => cases hc
  | @snoc t ts piece tokens _ h hs =>
      rw [List.getLast?_append_of_ne_nil _ hs.ne_nil] at hc
      rw [Bool.eq_false_iff]
      intro hc'
      obtain ⟨d, hd, hnum⟩ := n.exists_head?_text hn
      rw [hs.of_getLast? hc hc' d (by rw [List.head?_append, hd, Option.some_or]; rfl)] at hnum
      cases hnum

/-- A minus directly in front of a number without sign stands where no sign is allowed. -/
theorem Scanned.exists_of_minus (h : Scanned previous (u ++ ['-']) ts (n.text ++ v)) :
    ∃ us, Scanned previous u us [] ∧ signAllowed (us.getLast?.or previous) = false := by
  generalize hu : u ++ ['-'] = w at h
  cases h with
  | nil => simp at hu
  | @snoc t us piece tokens _ h hs =>
      have hlast : '-' ∈ piece.getLast? := by
        rw [← List.getLast?_append_of_ne_nil t hs.ne_nil, ← hu, List.getLast?_concat]
        rfl
      obtain ⟨rfl, hfirst⟩ := hs.of_minus hlast
      obtain ⟨rfl, -⟩ := List.append_inj' hu rfl
      refine ⟨us, h.of_append (u := []), ?_⟩
      rw [Bool.eq_false_iff]
      intro hallowed
      obtain ⟨d, hd, hnum⟩ := n.exists_head?_text hn
      rw [hfirst hallowed d (by rw [List.head?_append, hd, Option.some_or]; rfl)] at hnum
      cases hnum

end PocketCalculator.Token
