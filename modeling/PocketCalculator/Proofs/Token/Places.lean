import PocketCalculator.Proofs.Token.Lexemes
import PocketCalculator.Proofs.Token.Products

/-! # Places between the pieces of a text

Every place of a text lies between two pieces that the scanner reads off, or inside of one
(`Scanned.parted`).  The places of the first kind show in the tokens: what stands in front of such a
place gives the first tokens of the whole text, and this holds of no other place
(`betweenTokens_iff`).  There a character may be put in that goes on with no piece, such as a blank
or the sign of multiplication (`Scanned.append`).

The head of a circular function is read off wherever it stands in a text
(`exists_scanned_of_circular`). -/

namespace PocketCalculator.Token

variable {previous previous' : Option Token} {t u v x y piece rest : Text}
  {ts us tokens : List Token}

/-! ### Characters that separate -/

/-- A character that goes on with no piece in front of it. -/
def Separates (c : Char) : Prop :=
  isNumeralChar c = false ∧ ∀ r ∈ Head.rests, r.head? ≠ some c

theorem separates_times : Separates '×' :=
  ⟨by decide, by decide⟩

theorem separates_of_isBlank {c : Char} (hb : isBlank c = true) : Separates c := by
  refine ⟨?_, fun r hr hc => ?_⟩
  · rw [Bool.eq_false_iff]
    intro hn
    rw [isBlank_eq_false_of_numeral hn] at hb
    cases hb
  · have key : Head.rests.all (fun r => r.head?.all fun c => isBlank c = false) = true := by decide
    have hr := List.all_eq_true.1 key r hr
    rw [hc, Option.all_some, decide_eq_true_eq, hb] at hr
    cases hr

theorem read?_append_eq_none {c : Char} (h : Head.read? (c :: u) = none)
    (hv : ∀ d ∈ v.head?, Separates d) : Head.read? (c :: (u ++ v)) = none := by
  have hstands (g : Head) (r : Text) : c :: u ≠ g.text ++ r := by
    intro hu
    rw [hu, g.read?_text_append] at h
    cases h
  refine Head.read?_eq_none fun g ⟨w, hg⟩ => ?_
  rw [← List.cons_append] at hg
  rcases List.append_eq_append_iff.1 hg with ⟨r, hu, -⟩ | ⟨r, hu, hr⟩
  · exact hstands g r hu
  · cases r with
    | nil => exact hstands g [] (by rw [hu, List.append_nil, List.append_nil])
    | cons d r =>
        have hd := (hv d (by rw [hr]; rfl)).2
        exact hd _ (Head.mem_rests hu (List.cons_ne_nil c u) (List.cons_ne_nil d r)) rfl

/-- A step is the same in front of a text that goes on with no piece. -/
theorem Step.append (h : Step previous piece tokens u) (hv : ∀ c ∈ v.head?, Separates c) :
    Step previous piece tokens (u ++ v) := by
  have hnumeral (h : ∀ c ∈ u.head?, isNumeralChar c = false) :
      ∀ c ∈ (u ++ v).head?, isNumeralChar c = false := by
    intro c hc
    cases u with
    | nil => exact (hv c hc).1
    | cons d u => exact h c hc
  cases h with
  | blank hb => exact .blank hb
  | head g => exact .head g _
  | number n hs hr => exact .number n hs (hnumeral hr)
  | char hc hh hs => exact .char hc (read?_append_eq_none hh hv) fun hm ha => hnumeral (hs hm ha)

theorem Scanned.append (h : Scanned previous t ts u) (hv : ∀ c ∈ v.head?, Separates c) :
    Scanned previous t ts (u ++ v) := by
  induction h with
  | nil => exact .nil
  | snoc h hs ih =>
      rw [List.append_assoc] at ih
      exact .snoc ih (hs.append hv)

/-! ### Places -/

theorem Scanned.of_step (h : Step previous piece tokens rest) :
    Scanned previous piece tokens rest :=
  @Scanned.snoc previous [] [] piece tokens rest .nil h

theorem Scanned.trans {front back : List Token} (hu : Scanned previous u front (v ++ rest))
    (hv : Scanned (front.getLast?.or previous) v back rest) :
    Scanned previous (u ++ v) (front ++ back) rest := by
  induction hv with
  | nil =>
      rw [List.append_nil, List.append_nil]
      exact hu
  | snoc h hs ih =>
      rw [← getLast?_append_or] at hs
      rw [← List.append_assoc, ← List.append_assoc]
      rw [List.append_assoc] at hu
      exact (ih hu).snoc hs

theorem Scanned.exists_behind {front : List Token} (hu : Scanned previous u front v)
    (h : Scanned previous (u ++ v) ts []) :
    ∃ back, ts = front ++ back ∧ Scanned (front.getLast?.or previous) v back [] := by
  rw [scanned_iff, hu.ofChars_eq] at h
  cases hv : ofChars (front.getLast?.or previous) v with
  | error fault =>
      rw [hv] at h
      cases h
  | ok back =>
      rw [hv] at h
      cases h
      exact ⟨back, rfl, scanned_iff.2 hv⟩

/-- A place of a text lies between two pieces, or it parts a piece into `x` and `y`. -/
theorem Scanned.parted (h : Scanned previous (u ++ v) ts rest) :
    (∃ front back, ts = front ++ back ∧ Scanned previous u front (v ++ rest) ∧
      Scanned (front.getLast?.or previous) v back rest) ∨
    ∃ t x y w front tokens back, u = t ++ x ∧ v = y ++ w ∧ x ≠ [] ∧ y ≠ [] ∧
      ts = front ++ (tokens ++ back) ∧ Scanned previous t front (x ++ y ++ (w ++ rest)) ∧
      Step (front.getLast?.or previous) (x ++ y) tokens (w ++ rest) ∧
      Scanned ((front ++ tokens).getLast?.or previous) w back rest := by
  generalize huv : u ++ v = t at h
  induction h generalizing u v with
  | nil =>
      obtain ⟨rfl, rfl⟩ := List.append_eq_nil_iff.1 huv
      exact .inl ⟨[], [], rfl, .nil, .nil⟩
  | @snoc t ts piece tokens rest h hs ih =>
      rcases List.append_eq_append_iff.1 huv with ⟨z, ht, rfl⟩ | ⟨z, rfl, hpiece⟩
      · -- the place lies in front of the last piece
        rcases ih ht.symm with ⟨front, back, rfl, hf, hb⟩ |
          ⟨t', x, y, w, front, tokens', back, hu, rfl, hx, hy, rfl, hf, hstep, hb⟩
        · rw [getLast?_append_or] at hs
          rw [← List.append_assoc] at hf
          exact .inl ⟨front, back ++ tokens, List.append_assoc _ _ _, hf, hb.snoc hs⟩
        · rw [← List.append_assoc w] at hf hstep
          rw [← List.append_assoc, getLast?_append_or] at hs
          refine .inr ⟨t', x, y, w ++ piece, front, tokens', back ++ tokens, hu,
            List.append_assoc _ _ _, hx, hy, ?_, hf, hstep, hb.snoc hs⟩
          rw [List.append_assoc, List.append_assoc]
      · -- the place lies inside of the last piece or at one of its ends
        by_cases hz : z = []
        · subst hz
          rw [List.nil_append] at hpiece
          subst hpiece
          rw [List.append_nil]
          exact .inl ⟨ts, tokens, rfl, h, .of_step hs⟩
        · by_cases hv : v = []
          · subst hv
            rw [List.append_nil] at hpiece
            subst hpiece
            exact .inl ⟨ts ++ tokens, [], (List.append_nil _).symm, h.snoc hs, .nil⟩
          · subst hpiece
            exact .inr ⟨t, z, v, [], ts, tokens, [], rfl, (List.append_nil v).symm, hz, hv,
              by rw [List.append_nil], h, hs, .nil⟩

/-! ### Characters that stand in no token -/

/-- Whether a character is a lexeme of its own. -/
def isLexemeChar (c : Char) : Bool :=
  isBlank c || isNumeralChar c || (ofChar? c).isSome

theorem isLexemeChar_of_lexeme {c : Char} (h : Lexeme [c]) : isLexemeChar c = true := by
  rcases lexeme_iff.1 h with ⟨g, hg⟩ | ⟨d, hd, hlexeme⟩
  · have key : ∀ g ∈ Head.all, 1 < g.text.length := by decide
    have hlen := key g g.mem_all
    rw [← hg] at hlen
    exact absurd hlen (Nat.lt_irrefl 1)
  · cases hd
    rcases hlexeme with h | h | h
    all_goals simp [isLexemeChar, h]

theorem not_scanned_of_mem_units {c : Char} (hu : [c] ∈ units t) (hc : isLexemeChar c = false) :
    ¬Scanned previous t ts rest := by
  intro h
  rw [isLexemeChar_of_lexeme (h.spelled.lexeme_of_mem_units hu)] at hc
  cases hc

theorem mem_units_of_char {c : Char} {t : Text} (h : Head.read? (c :: t) = none) :
    [c] ∈ units (c :: t) := by
  rw [units_cons_of_char h]
  exact List.mem_cons_self

theorem not_scanned_circular (f : CircularFunction) : ¬Scanned previous f.text ts rest := by
  rcases f with ⟨_ | _ | _, inverse⟩
  · refine not_scanned_of_mem_units (c := 's') ?_ (by decide)
    cases inverse <;> exact mem_units_of_char (by decide)
  · refine not_scanned_of_mem_units (c := 'c') ?_ (by decide)
    cases inverse <;> exact mem_units_of_char (by decide)
  · refine not_scanned_of_mem_units (c := 't') ?_ (by decide)
    cases inverse <;> exact mem_units_of_char (by decide)

/-! ### Places between tokens -/

/-- A piece is a blank, or a token spells it, or it is a circular function with its parenthesis. -/
theorem Step.forms (h : Step previous piece tokens rest) :
    (∃ c, isBlank c = true ∧ piece = [c] ∧ tokens = []) ∨
    (∃ s, s.text = piece ∧ tokens = [s]) ∨
    ∃ f : CircularFunction, piece = f.text ++ ['('] ∧ tokens = [circular f, opening] := by
  cases h with
  | blank hb => exact .inl ⟨_, hb, rfl, rfl⟩
  | number n hs hr => exact .inr (.inl ⟨Token.number n, rfl, rfl⟩)
  | char hc hh hs => exact .inr (.inl ⟨_, text_of_ofChar? hc, rfl⟩)
  | head g =>
      cases g with
      | circular f => exact .inr (.inr ⟨f, rfl, rfl⟩)
      | marker m => exact .inr (.inl ⟨marker m, rfl, rfl⟩)
      | ans => exact .inr (.inl ⟨ans, rfl, rfl⟩)
      | reciprocal => exact .inr (.inl ⟨suffix .reciprocal, rfl, rfl⟩)

theorem Step.isBlank_of_mem (h : Step previous piece tokens rest) (hl : 1 < piece.length) :
    ∀ c ∈ piece, isBlank c = false := by
  cases h with
  | blank | char => exact absurd hl (Nat.lt_irrefl 1)
  | head g => exact fun c hc => Head.isBlank_of_mem_text hc
  | number n => exact fun c hc => (isBlank_of_mem_numeral n hc).1

theorem Step.tokens_ne (h : Step previous (x ++ y) tokens rest) (hx : x ≠ []) (hy : y ≠ [])
    (hs : Scanned previous x us []) (front back : List Token) : us ++ front ≠ tokens ++ back := by
  have hlen := List.length_pos_iff.2 hx
  have hlen' := List.length_pos_iff.2 hy
  have hb : ∀ c ∈ x, isBlank c = false := by
    have hpiece := h.isBlank_of_mem (by rw [List.length_append]; omega)
    exact fun c hc => hpiece c (List.mem_append_left y hc)
  have hjoin : join us = x := join_of_scanned hs hb
  have hne : us ≠ [] := fun he => hx (by rw [← hjoin, he]; rfl)
  obtain ⟨r, us, rfl⟩ := List.exists_cons_of_ne_nil hne
  intro he
  rcases h.forms with ⟨c, -, hc, -⟩ | ⟨s, hpiece, rfl⟩ | ⟨f, hpiece, rfl⟩
  · have hone := congrArg List.length hc
    rw [List.length_append, List.length_singleton] at hone
    omega
  · -- the token spells more than `x`
    obtain ⟨rfl, -⟩ := List.cons.inj he
    have hlength := congrArg List.length hjoin
    rw [join, List.flatMap_cons, hpiece, List.length_append, List.length_append] at hlength
    omega
  · obtain ⟨rfl, hrest⟩ := List.cons.inj he
    cases us with
    | nil =>
        -- the name of the function is no text of its own
        have hname : f.text = x := by simpa [join, text] using hjoin
        exact not_scanned_circular f (hname ▸ hs)
    | cons r us =>
        obtain ⟨rfl, -⟩ := List.cons.inj hrest
        have hlength := congrArg List.length hjoin
        have hwhole := congrArg List.length hpiece
        simp only [join, text, List.flatMap_cons, List.length_append, List.length_singleton]
          at hlength
        rw [List.length_append, List.length_append, List.length_singleton] at hwhole
        omega

/-- The place between `u` and `v` lies inside of no token of the text `u ++ v`, and inside of no
head: the tokens in front of it are the first ones of the text. -/
def BetweenTokens (u v : Text) : Prop :=
  ∃ front back, scan u = .ok front ∧ scan (u ++ v) = .ok (front ++ back)

instance (u v : Text) : Decidable (BetweenTokens u v) :=
  match hu : scan u, hall : scan (u ++ v) with
  | .ok front, .ok ts =>
    decidable_of_iff (front <+: ts) <| by
      rw [BetweenTokens, hu, hall]
      simp only [Except.ok.injEq, exists_and_left, exists_eq_left']
      exact ⟨fun ⟨back, h⟩ => ⟨back, h.symm⟩, fun ⟨back, h⟩ => ⟨back, h.symm⟩⟩
  | .ok _, .error _ => isFalse fun ⟨_, _, _, h⟩ => by rw [hall] at h; cases h
  | .error _, _ => isFalse fun ⟨_, _, h, _⟩ => by rw [hu] at h; cases h

theorem BetweenTokens.not_inside {w : Text} {front : List Token}
    (h : BetweenTokens (t ++ x) (y ++ w)) (ht : Scanned none t front (x ++ (y ++ w)))
    (hs : Step front.getLast? (x ++ y) tokens w) (hx : x ≠ []) : y = [] := by
  by_contra hy
  obtain ⟨front', back, hfront, hall⟩ := h
  rw [scan_eq_ok_iff] at hfront hall
  -- the tokens in front of the piece, and those of what is cut off from it
  obtain ⟨us, rfl, hus⟩ := (ht.of_append (u := x)).exists_behind hfront
  rw [List.append_assoc] at hall
  obtain ⟨behind, hbehind, hall⟩ := ht.exists_behind hall
  rw [Option.or_none] at hus hall
  rw [← List.append_assoc] at hall
  obtain ⟨more, rfl, -⟩ := (Scanned.of_step hs).exists_behind hall
  rw [List.append_assoc] at hbehind
  exact hs.tokens_ne hx hy hus _ _ (List.append_cancel_left hbehind)

theorem betweenTokens_iff : BetweenTokens u v ↔
    ∃ front back, Scanned none u front v ∧ Scanned front.getLast? v back [] := by
  constructor
  · intro h
    have ⟨front, back, _, hall⟩ := h
    rw [scan_eq_ok_iff] at hall
    rcases hall.parted with ⟨front', back', -, hu, hv⟩ |
      ⟨t, x, y, w, front', tokens, back', rfl, rfl, hx, hy, -, ht, hstep, -⟩
    · rw [List.append_nil] at hu
      rw [Option.or_none] at hv
      exact ⟨front', back', hu, hv⟩
    · rw [List.append_nil] at ht hstep
      rw [List.append_assoc] at ht
      rw [Option.or_none] at hstep
      exact absurd (h.not_inside ht hstep hx) hy
  · rintro ⟨front, back, hu, hv⟩
    refine ⟨front, back, scan_eq_ok_iff.2 (hu.of_append (u := [])), scan_eq_ok_iff.2 ?_⟩
    rw [← Option.or_none (o := front.getLast?)] at hv
    rw [← List.append_nil v] at hu
    exact hu.trans hv

/-! ### Circular functions -/

theorem Step.not_circular {w : Text} {back : List Token} {f : CircularFunction}
    (h : Step previous (x ++ y) tokens w) (hx : x ≠ []) (hy : y ≠ [])
    (hw : Scanned previous' w back rest) : y ++ w ≠ f.text ++ v := by
  intro he
  have hlen := List.length_pos_iff.2 hx
  have hlen' := List.length_pos_iff.2 hy
  have hfirst : y.head? = (f.text ++ v).head? := by
    rw [← he, List.head?_append_of_ne_nil _ hy]
  generalize hpiece : x ++ y = piece at h
  have hlength := congrArg List.length hpiece
  rw [List.length_append] at hlength
  cases h with
  | blank | char =>
      rw [List.length_singleton] at hlength
      omega
  | number n =>
      have hinitial : ∀ c ∈ y.head?, c ∉ headInitials := fun c hc =>
        (isBlank_of_mem_numeral n (hpiece ▸ List.mem_append_right x (List.mem_of_head? hc))).2
      rcases f with ⟨_ | _ | _, inverse⟩
      all_goals exact hinitial _ hfirst (by decide)
  | head g =>
      have hr : y ∈ Head.rests := Head.mem_rests hpiece.symm hx hy
      have key : ∀ r ∈ Head.rests, r.head? ≠ some 'c' ∧ r.head? ≠ some 't' := by decide
      rcases f with ⟨_ | _ | _, inverse⟩
      · -- the name of the last result ends as the sine begins, but no text goes on as it does
        have hends : ∀ r ∈ Head.rests, r.take 2 <+: ['s', 'i'] → r = ['s'] := by decide
        have hp : y <+: 's' :: 'i' :: 'n' :: ((if inverse then inverseMark else []) ++ v) :=
          ⟨w, he⟩
        have hy' := hends y hr (List.IsPrefix.take hp 2)
        subst hy'
        obtain ⟨more, rfl⟩ : ∃ more, w = 'i' :: more := ⟨_, (List.cons.inj he).2⟩
        refine not_scanned_of_mem_units (c := 'i') ?_ (by decide) hw
        rw [units_cons_of_char (Head.read?_cons_eq_none _ (by decide))]
        exact List.mem_cons_self
      · exact (key y hr).1 hfirst
      · exact (key y hr).2 hfirst

/-- A circular function is read off wherever its head stands. -/
theorem exists_scanned_of_circular {f : CircularFunction}
    (h : Scanned previous (u ++ (f.text ++ '(' :: v)) ts []) :
    ∃ front back, ts = front ++ circular f :: opening :: back ∧
      Scanned previous u front (f.text ++ '(' :: v) ∧ Scanned (some opening) v back [] := by
  have htext : f.text ++ '(' :: v = (Head.circular f).text ++ v := by
    rw [Head.text, List.append_assoc]
    rfl
  rcases h.parted with ⟨front, back, rfl, hu, hv⟩ |
    ⟨t, x, y, w, front, tokens, back, -, hv, hx, hy, -, -, hstep, hw⟩
  · rw [List.append_nil] at hu
    rw [htext] at hv
    obtain ⟨back', rfl, hv'⟩ := (Scanned.of_step (.head (.circular f) v)).exists_behind hv
    exact ⟨front, back', rfl, hu, hv'⟩
  · rw [List.append_nil] at hstep
    exact absurd hv.symm (hstep.not_circular hx hy hw)

theorem BetweenTokens.not_inside_circular {w : Text} {f : CircularFunction}
    (h : BetweenTokens (t ++ x) (y ++ w)) (hf : x ++ y = f.text ++ ['(']) (hx : x ≠ []) :
    y = [] := by
  have hhead : x ++ (y ++ w) = f.text ++ '(' :: w := by
    rw [← List.append_assoc, hf, List.append_assoc]
    rfl
  have ⟨front, back, _, hall⟩ := h
  rw [scan_eq_ok_iff, List.append_assoc, hhead] at hall
  obtain ⟨before, -, -, ht, -⟩ := exists_scanned_of_circular hall
  rw [← hhead] at ht
  have hs : Step before.getLast? (x ++ y) (Head.circular f).tokens w := by
    rw [hf]
    exact .head (.circular f) w
  exact h.not_inside ht hs hx

end PocketCalculator.Token
