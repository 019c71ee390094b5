import PocketCalculator.Proofs.Token.Places

/-! # Texts with their products written out

`explicitText` writes the tokens of an expression, with the products that are implied, as a text
again.  Tokens with their products written out imply no more (`withProducts_withProducts`), and the
text of such tokens is read off as just these tokens (`scan_explicit`).

A sign of multiplication goes on with no piece in front of it, and the piece behind it is none that
depends on the token in front (`Step.behind_times`).  It could only become a part of `×10^` itself,
and for that a caret would have to follow a number (`read?_times`). -/

namespace PocketCalculator.Token

variable {previous : Option Token} {t piece rest : Text} {ts tokens : List Token} {s r : Token}

/-! ### Products between two lists -/

/-- The sign of multiplication, as far as one is implied between two places that may hold a
token. -/
def productBetween : Option Token → Option Token → List Token
  | some s, some r => if impliesProduct s r then [multiplicative .times] else []
  | _, _ => []

theorem withProducts_cons (s : Token) (ts : List Token) :
    withProducts (s :: ts) = s :: (productBetween (some s) ts.head? ++ withProducts ts) := by
  cases ts with
  | nil => rfl
  | cons r ts =>
      rw [withProducts, List.head?_cons, productBetween]
      split <;> rfl

theorem withProducts_append (front back : List Token) :
    withProducts (front ++ back) = withProducts front ++
      (productBetween front.getLast? back.head? ++ withProducts back) := by
  induction front with
  | nil => rfl
  | cons s front ih =>
      rw [List.cons_append, withProducts_cons, withProducts_cons, ih]
      cases front with
      | nil => simp [productBetween, withProducts]
      | cons r front => simp

theorem head?_withProducts (ts : List Token) : (withProducts ts).head? = ts.head? := by
  cases ts with
  | nil => rfl
  | cons s ts => rw [withProducts_cons, List.head?_cons, List.head?_cons]

theorem getLast?_withProducts (ts : List Token) : (withProducts ts).getLast? = ts.getLast? := by
  rcases List.eq_nil_or_concat' ts with rfl | ⟨ts, s, rfl⟩
  · rfl
  · rw [withProducts_append, List.getLast?_append, List.getLast?_append, List.getLast?_append]
    rfl

theorem productBetween_eq (left right : Option Token) :
    productBetween left right = [] ∨ productBetween left right = [multiplicative .times] := by
  unfold productBetween
  split
  · split
    · exact .inr rfl
    · exact .inl rfl
  · exact .inl rfl

theorem productBetween_times (left right : Option Token) :
    productBetween left (some (multiplicative .times)) = [] ∧
      productBetween (some (multiplicative .times)) right = [] := by
  constructor
  · cases left with
    | none => rfl
    | some s => cases s <;> rfl
  · cases right <;> rfl

/-- Tokens with their products written out imply no more. -/
theorem withProducts_withProducts (ts : List Token) :
    withProducts (withProducts ts) = withProducts ts := by
  induction ts with
  | nil => rfl
  | cons s ts ih =>
      rw [withProducts_cons s ts]
      rcases productBetween_eq (some s) ts.head? with h | h
      · rw [h, List.nil_append, withProducts_cons, head?_withProducts, h, ih, List.nil_append]
      · rw [h, List.singleton_append, withProducts_cons, List.head?_cons,
          (productBetween_times (some s) none).1, List.nil_append, withProducts_cons,
          (productBetween_times none _).2, List.nil_append, ih]

/-! ### What the text of the tokens is read off as -/

theorem startsOperand_of_productBetween {left right : Option Token}
    (h : productBetween left right = [multiplicative .times]) :
    ∃ s r, left = some s ∧ right = some r ∧ s.endsOperand = true ∧ r.startsOperand = true := by
  unfold productBetween at h
  split at h
  · rename_i s r
    refine ⟨s, r, rfl, rfl, ?_⟩
    have himplied : impliesProduct s r = true := by
      by_contra hn
      rw [if_neg hn] at h
      cases h
    have hapart : Apart s r := by
      rintro m n ⟨rfl, rfl⟩
      cases himplied
    rw [impliesProduct_eq hapart, Bool.and_eq_true] at himplied
    exact himplied
  · cases h

theorem Step.withProducts_eq (h : Step previous piece tokens rest) :
    withProducts tokens = tokens := by
  rcases h.forms with ⟨c, -, -, rfl⟩ | ⟨s, -, rfl⟩ | ⟨f, -, rfl⟩
  all_goals rfl

/-- A piece that starts an operand is read off as well behind a sign of multiplication. -/
theorem Step.behind_times (h : Step previous piece tokens rest) (hs : tokens.head? = some s)
    (ho : s.startsOperand = true) :
    Step (some (multiplicative .times)) piece tokens rest := by
  cases h with
  | blank hb => exact .blank hb
  | head g => exact .head g rest
  | number n hsign hr => exact .number n (fun _ => rfl) hr
  | char hc hh hsign =>
      refine .char hc hh ?_
      rintro rfl
      cases hc
      cases hs
      cases ho

theorem Step.head?_ne_caret (h : Step previous piece tokens rest) : piece.head? ≠ some '^' := by
  intro hp
  cases h with
  | blank hb =>
      cases hp
      cases hb
  | head g =>
      have key : ∀ g ∈ Head.all, g.text.head? ≠ some '^' := by decide
      exact Head.forall_head key g hp
  | number n => exact n.not_mem_text (by decide) (by decide) (List.mem_of_head? hp)
  | char hc =>
      cases hp
      cases hc

/-- A sign of multiplication in front of a piece does not become a part of `×10^`. -/
theorem Step.read?_times (h : Step previous piece tokens rest) (hr : rest.head? ≠ some '^') :
    Head.read? ('×' :: (piece ++ rest)) = none := by
  have hnot : ¬['1', '0', '^'] <+: piece ++ rest := by
    rintro ⟨w, hw⟩
    cases h with
    | blank hb =>
        cases hw
        exact absurd hb (by decide)
    | head g =>
        have key : ∀ g ∈ Head.all, g.text.head?.all (· ≠ '1') = true := by decide
        obtain ⟨c, v, hv⟩ := List.exists_cons_of_ne_nil g.text_ne_nil
        have hc := Head.forall_head key g
        rw [hv] at hw hc
        rw [← (List.cons.inj hw).1] at hc
        cases hc
    | number n hs hend =>
        have hbody : n.body ++ rest = '1' :: '0' :: '^' :: w := by
          rw [Numeral.text] at hw
          split at hw
          · cases hw
          · exact hw.symm
        have hdrop := (Text.takeWhile_append n.isNumeralChar_of_mem hend).2
        have hone : isNumeralChar '1' = true ∧ isNumeralChar '0' = true ∧
          isNumeralChar '^' = false := by decide
        have hrest : '^' :: w = rest := by simpa [hbody, hone] using hdrop
        exact hr (by rw [← hrest]; rfl)
    | char hc =>
        cases hw
        cases hc
  refine Head.read?_eq_none fun g hg => ?_
  have key : ∀ g ∈ Head.all, g.text.head? = some '×' → g = .marker .tenPower := by decide
  obtain ⟨c, v, hv⟩ := List.exists_cons_of_ne_nil g.text_ne_nil
  have hhead : g.text.head? = some '×' := by
    rw [hv, List.cons_prefix_cons] at hg
    rw [hv, hg.1]
    rfl
  rw [Head.forall_head key g hhead] at hg
  exact hnot (List.cons_prefix_cons.1 hg).2

theorem join_cons (s : Token) (ts : List Token) : join (s :: ts) = s.text ++ join ts :=
  List.flatMap_cons

theorem join_append (ts us : List Token) : join (ts ++ us) = join ts ++ join us :=
  List.flatMap_append

/-- Where a sign of multiplication is implied, it can be written in front of a piece. -/
theorem Scanned.snoc_times (h : Scanned previous t ts (piece ++ rest)) {previous' : Option Token}
    (hs : Step previous' piece tokens rest) (hhead : tokens.head? = some s)
    (ho : s.startsOperand = true) (hr : rest.head? ≠ some '^') :
    Scanned previous (t ++ ['×'] ++ piece) (ts ++ [multiplicative .times] ++ tokens) rest := by
  have htimes : Step (ts.getLast?.or previous) ['×'] [multiplicative .times] (piece ++ rest) :=
    .char (by decide) (hs.read?_times hr) fun hminus => absurd hminus (by decide)
  have hfront : Scanned previous t ts (['×'] ++ (piece ++ rest)) :=
    (h.of_append (u := [])).append fun c hc => by
      cases hc
      exact separates_times
  refine (hfront.snoc htimes).snoc ?_
  rw [List.getLast?_concat]
  exact hs.behind_times hhead ho

/-- The text of the tokens of a text without blanks, with their products written out, is read off
as these tokens. -/
theorem Scanned.explicit (h : Scanned previous t ts rest) (hblank : ∀ c ∈ t, isBlank c = false)
    (hr : rest.head? ≠ some '^') :
    Scanned previous (join (withProducts ts)) (withProducts ts) rest := by
  induction h with
  | nil => exact .nil
  | @snoc t ts piece tokens rest h hs ih =>
      have hfront := ih (fun c hc => hblank c (List.mem_append_left piece hc)) <| by
        rw [List.head?_append_of_ne_nil _ hs.ne_nil]
        exact hs.head?_ne_caret
      have hpiece : join tokens = piece :=
        join_of_scanned (.of_step hs) fun c hc => hblank c (List.mem_append_right t hc)
      rw [withProducts_append, hs.withProducts_eq]
      rcases productBetween_eq ts.getLast? tokens.head? with hb | hb
      · rw [hb, List.nil_append, join_append, hpiece]
        rw [← getLast?_withProducts] at hs
        exact hfront.snoc hs
      · obtain ⟨-, s, -, hhead, -, ho⟩ := startsOperand_of_productBetween hb
        rw [hb, ← List.append_assoc, join_append, join_append, hpiece]
        exact hfront.snoc_times hs hhead ho hr

/-- The text of an expression with its products written out. -/
def explicitText (t : Text) : Except Failure Text :=
  (ofExpression t).map join

theorem explicitText_of_scan (h : scan t = .ok ts) :
    explicitText t = .ok (join (withProducts ts)) := by
  rw [explicitText, ofExpression, h]
  rfl

theorem scan_explicit (h : scan t = .ok ts) (hblank : ∀ c ∈ t, isBlank c = false) :
    scan (join (withProducts ts)) = .ok (withProducts ts) :=
  scan_eq_ok_iff.2 ((scan_eq_ok_iff.1 h).explicit hblank (by decide))

end PocketCalculator.Token
