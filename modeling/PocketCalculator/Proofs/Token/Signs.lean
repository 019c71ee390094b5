import PocketCalculator.Proofs.Token.Places

/-! # The sign of a number in its text

A run of digits and points in a keyed text is the body of a number among its tokens
(`exists_standing_at`).  What stands in front of the run decides about the sign of the number and
about the tokens in front of it, and no more: a minus that takes a sign there is the sign
(`Standing.of_signed`), and everything else is read off as if the run was not there
(`Standing.of_unsigned`).  The tokens behind the run do not depend on either. -/

namespace PocketCalculator

/-! ### Characters of keyed texts -/

theorem Keyed.exists_unit {t : Text} (h : Keyed t) {c : Char} (hc : c ∈ t) :
    ∃ u ∈ keyUnits, c ∈ u := by
  rw [← flatten_units t] at hc
  obtain ⟨u, hu, hc⟩ := List.mem_flatten.1 hc
  exact ⟨u, h hu, hc⟩

theorem Keyed.isBlank_eq_false {t : Text} (h : Keyed t) {c : Char} (hc : c ∈ t) :
    isBlank c = false := by
  have key : keyUnits.all (fun u => u.all fun c => isBlank c = false) = true := by decide
  obtain ⟨u, hu, hc⟩ := h.exists_unit hc
  exact of_decide_eq_true (List.all_eq_true.1 (List.all_eq_true.1 key u hu) c hc)

theorem Keyed.plain_of_numeral {t : Text} (h : Keyed t) {c : Char} (hc : c ∈ t)
    (hn : isNumeralChar c = true) : isPlainNumeralChar c = true := by
  have key : keyUnits.all (fun u => u.all fun c =>
      !isNumeralChar c || isPlainNumeralChar c) = true := by
    decide
  obtain ⟨u, hu, hc⟩ := h.exists_unit hc
  have hplain := List.all_eq_true.1 (List.all_eq_true.1 key u hu) c hc
  rwa [hn, Bool.not_true, Bool.false_or] at hplain

/-- The other numeral with the same digits. -/
def Numeral.opposite (n : Numeral) : Numeral :=
  { n with negative := !n.negative }

theorem Numeral.ext_of {m n : Numeral} (hn : m.negative = n.negative) (hb : m.body = n.body) :
    m = n := by
  cases m
  cases n
  cases hn
  cases hb
  rfl

theorem Numeral.eq_nil_of_body (n : Numeral) {x y : Text} (h : n.body = x ++ y)
    (hlast : ∀ c ∈ x.getLast?, isNumeralChar c = false) : x = [] := by
  by_contra hx
  have hmem : x.getLast hx ∈ n.body := h ▸ List.mem_append_left y (List.getLast_mem hx)
  have hfalse := hlast _ (List.getLast?_eq_some_getLast hx)
  rw [n.isNumeralChar_of_mem _ hmem] at hfalse
  cases hfalse

/-- Only the sign of a numeral stands in front of its digits. -/
theorem Numeral.eq_sign_of_cut (n : Numeral) {x y : Text} (h : n.text = x ++ y) (hx : x ≠ [])
    (hlast : ∀ c ∈ x.getLast?, isNumeralChar c = false) :
    n.negative = true ∧ x = ['-'] ∧ y = n.body := by
  rw [Numeral.text] at h
  split at h
  · rename_i hneg
    cases x with
    | nil => exact absurd rfl hx
    | cons d z =>
        obtain ⟨rfl, hz⟩ := List.cons.inj h
        obtain rfl := n.eq_nil_of_body hz fun c hc => hlast c <| by
          rwa [List.getLast?_cons_of_ne_nil (List.ne_nil_of_mem (List.mem_of_getLast? hc))]
        exact ⟨hneg, rfl, hz.symm⟩
  · exact absurd (n.eq_nil_of_body h hlast) hx

namespace Token

variable {u v front run back : Text} {ts l : List Token} {n : Numeral}

/-! ### A minus at the end -/

/-- Another minus in front of a number than its sign would become the sign if the sign went: these
tokens, in front of the number, end with such a minus. -/
def EndsWithSign (ts : List Token) : Prop :=
  ∃ us, ts = us ++ [additive .minus] ∧ TakesSign us

theorem takesSign_concat_minus (ts : List Token) : TakesSign (ts ++ [additive .minus]) := by
  intro s hs
  rw [List.getLast?_concat] at hs
  cases hs
  exact .inl rfl

theorem separates_minus : Separates '-' :=
  ⟨by decide, by decide⟩

theorem scan_minus (h : scan u = .ok ts) : scan (u ++ ['-']) = .ok (ts ++ [additive .minus]) := by
  rw [scan_eq_ok_iff] at h ⊢
  have hu : Scanned none u ts (['-'] ++ []) := h.append fun c hc => by
    cases hc
    exact separates_minus
  exact hu.snoc (.char rfl (Head.read?_cons_eq_none [] (by decide)) fun _ _ d hd => nomatch hd)

theorem exists_of_scan_minus (hb : ∀ c ∈ u, isBlank c = false)
    (h : scan u = .ok (ts ++ [additive .minus])) : ∃ v, u = v ++ ['-'] ∧ scan v = .ok ts := by
  rw [scan_eq_ok_iff] at h
  generalize hts : ts ++ [additive .minus] = us at h
  cases h with
  | nil => simp at hts
  | @snoc t us piece tokens _ h hs =>
      rw [List.append_nil] at h
      cases hs with
      | @blank c _ hblank =>
          have hc := hb c (List.mem_append_right t List.mem_cons_self)
          rw [hblank] at hc
          cases hc
      | head g =>
          have key : ∀ g ∈ Head.all, g.tokens.getLast? ≠ some (additive .minus) ∧ g.tokens ≠ [] := by
            decide
          obtain ⟨hlast, hne⟩ := Head.forall_head key g
          have he := congrArg List.getLast? hts
          rw [List.getLast?_concat, List.getLast?_append_of_ne_nil _ hne] at he
          exact absurd he.symm hlast
      | number n => exact absurd (List.append_inj' hts rfl).2 (by simp)
      | @char c s _ hc =>
          obtain ⟨rfl, hs⟩ := List.append_inj' hts rfl
          cases hs
          have htext := text_of_ofChar? hc
          cases htext
          exact ⟨t, rfl, scan_eq_ok_iff.2 (h.of_append (u := []))⟩

/-! ### A run in front of which nothing is cut off -/

theorem not_rest_of_keyed {r w : Text} (hr : r ∈ Head.rests)
    (hn : ∀ c ∈ r.head?, isNumeralChar c = true) : ¬Keyed (r ++ w) := by
  have key : Head.rests.all (fun r => !r.head?.all isNumeralChar ||
      r = ['1', '0', '^'] || r = ['0', '^']) = true := by
    decide
  have hpower : ¬Keyed ('^' :: w) := fun h =>
    absurd ((keyed_cons_iff (by decide)).1 h).1 (by decide)
  have hzero : ¬Keyed ('0' :: '^' :: w) := fun h =>
    hpower ((keyed_cons_iff (by decide)).1 h).2
  have hr' := List.all_eq_true.1 key r hr
  rw [(Option.all_eq_true _ _).2 hn, Bool.not_true, Bool.false_or, Bool.or_eq_true,
    decide_eq_true_eq, decide_eq_true_eq] at hr'
  rcases hr' with rfl | rfl
  · exact fun h => hzero ((keyed_cons_iff (by decide)).1 h).2
  · exact hzero

variable (hne : run ≠ []) (hrun : ∀ c ∈ run, isNumeralChar c = true)
  (hleft : ∀ c ∈ front.getLast?, isNumeralChar c = false)
  (hright : ∀ c ∈ back.head?, isNumeralChar c = false)

include hne hrun hleft hright

/-- A run of digits in a keyed text is the body of a number. -/
theorem exists_scanned_run (hfront : Keyed front) (hback : Keyed (run ++ back)) :
    ∃ u l n r, front = u ++ (if n.negative then ['-'] else []) ∧ n.body = run ∧
      Scanned none u l (n.text ++ back) ∧
      (n.negative = true → signAllowed l.getLast? = true) ∧
      ofChars (some (number n)) back = .ok r ∧
      scan (front ++ (run ++ back)) = .ok (l ++ number n :: r) := by
  obtain ⟨ts, hscan⟩ := exists_scan_of_keyed (hfront.append hback)
  have hrunhead : ∀ c ∈ (run ++ back).head?, isNumeralChar c = true := by
    intro c hc
    rw [List.head?_append_of_ne_nil _ hne] at hc
    exact hrun c (List.mem_of_head? hc)
  rcases (scan_eq_ok_iff.1 hscan).parted with ⟨l, more, rfl, hl, hmore⟩ |
    ⟨t, x, y, w, l, tokens, r, hx', hy', hx, hy, rfl, ht, hstep, hr⟩
  · -- the run begins with the number
    rw [List.append_nil] at hl
    obtain ⟨r, rfl, hr⟩ :=
      (Scanned.of_step (.number ⟨false, run, hne, List.all_eq_true.2 hrun⟩
        (fun h => absurd h Bool.false_ne_true) hright)).exists_behind hmore
    exact ⟨front, l, ⟨false, run, hne, List.all_eq_true.2 hrun⟩, r, (List.append_nil _).symm, rfl,
      hl, fun h => absurd h Bool.false_ne_true, scanned_iff.1 hr, hscan⟩
  · -- a piece begins in front of the run and goes on in it
    rw [List.append_nil] at ht hstep
    rw [hy', List.head?_append_of_ne_nil _ hy] at hrunhead
    have hxlast : ∀ c ∈ x.getLast?, isNumeralChar c = false := by
      rw [hx', List.getLast?_append_of_ne_nil _ hx] at hleft
      exact hleft
    generalize hpiece : x ++ y = piece at hstep ht
    cases hstep with
    | blank | char =>
        have hlength := congrArg List.length hpiece
        have hxpos := List.length_pos_iff.2 hx
        have hypos := List.length_pos_iff.2 hy
        rw [List.length_append, List.length_singleton] at hlength
        omega
    | head g =>
        rw [hy'] at hback
        exact absurd hback (not_rest_of_keyed (Head.mem_rests hpiece.symm hx hy) hrunhead)
    | number n hs hr' =>
        obtain ⟨hneg, rfl, rfl⟩ := n.eq_sign_of_cut hpiece.symm hx hxlast
        obtain ⟨hrun', hback'⟩ := Text.takeWhile_append hrun hright
        obtain ⟨hbody, hw⟩ := Text.takeWhile_append n.isNumeralChar_of_mem hr'
        rw [← hy', hrun'] at hbody
        rw [← hy', hback'] at hw
        subst hw
        rw [List.getLast?_concat] at hr
        refine ⟨t, l, n, r, by rw [hx', hneg]; rfl, hbody.symm, ht, ?_, scanned_iff.1 hr, hscan⟩
        rwa [Option.or_none] at hs

/-- The number that a run of digits is the body of stands there, and the tokens behind it are those
of the text behind it. -/
theorem exists_standing_at (hfront : Keyed front) (hback : Keyed (run ++ back)) :
    ∃ l n r, scan (front ++ (run ++ back)) = .ok (l ++ number n :: r) ∧ n.body = run ∧
      Standing n l front back ∧ ofChars (some (number n)) back = .ok r := by
  obtain ⟨u, l, n, r, rfl, hbody, hl, hs, hr, hscan⟩ :=
    exists_scanned_run hne hrun hleft hright hfront hback
  exact ⟨l, n, r, hscan, hbody, hl.standing hs hright, hr⟩

omit hne hrun hleft hright

/-! ### What decides about the sign -/

/-- A minus that takes a sign is the sign of the number behind it. -/
theorem Standing.of_signed (h : Standing n l front back) (hfront : front = u ++ ['-'])
    (hu : scan u = .ok ts) (hs : TakesSign ts) : n.negative = true ∧ l = ts := by
  have hneg : n.negative = true := h.sign_iff.2 ⟨u, ts, hfront, hu, hs⟩
  refine ⟨hneg, ?_⟩
  obtain ⟨v, hv, hl⟩ := h.scan_left
  rw [hneg, if_pos rfl, hfront] at hv
  obtain ⟨rfl, -⟩ := List.append_inj' hv rfl
  rw [hu] at hl
  exact (Except.ok.inj hl).symm

/-- A number without a sign leaves the tokens in front of it as they are. -/
theorem Standing.of_unsigned (h : Standing n l front back)
    (hnot : ∀ u us, front = u ++ ['-'] → scan u = .ok us → ¬TakesSign us) :
    n.negative = false ∧ scan front = .ok l := by
  have hneg : n.negative = false := by
    rw [Bool.eq_false_iff]
    intro hneg
    obtain ⟨u, us, hfront, hu, hs⟩ := h.sign_iff.1 hneg
    exact hnot u us hfront hu hs
  refine ⟨hneg, ?_⟩
  obtain ⟨v, rfl, hl⟩ := h.scan_left
  simpa [hneg] using hl

end Token
end PocketCalculator
