import PocketCalculator.Proofs.Buffer.Atomic
import PocketCalculator.Proofs.Buffer.Values

/-! # What suffixes and bars stand behind

A suffix and the bar of a fraction belong behind a value or a blank; a text is *supported* when all
of them stand there.  A deletion keeps a text supported unless it takes a whole away from in front
of a suffix or a bar: an empty template, or an empty slot with what closes it.  When an operand
goes, the blank comes back if nothing else supports what stands behind the cursor; when a whole
goes, nobody looks.  `Buffer.supported_delete` says that these are the only deletions to fail, and
that the blank would have helped, and `Buffer.supported_delete_differs` shows one of each kind. -/

namespace PocketCalculator.Buffer

variable {b : Buffer} {t front back : Text}

/-! ### Supported texts -/

/-- Behind `front`, each suffix and each bar of the text is preceded by a value or a blank. -/
def SupportedBehind (front t : Text) : Prop :=
  ∀ l u r, units t = l ++ u :: r → u ∈ slotClosers → endsWithValue (front ++ l.flatten) = true

/-- Each suffix and each bar of the text is preceded by a value or a blank. -/
def Supported (t : Text) : Prop :=
  ∀ l u r, units t = l ++ u :: r → u ∈ slotClosers → endsWithValue l.flatten = true

theorem supportedBehind_iff_forall_lt : SupportedBehind front t ↔ ∀ (i : Nat)
    (h : i < (units t).length), slotClosers.contains (units t)[i] →
      endsWithValue (front ++ ((units t).take i).flatten) = true := by
  constructor
  · intro hs i hi hmem
    refine hs _ _ ((units t).drop (i + 1)) ?_ (List.contains_iff_mem.1 hmem)
    rw [← List.drop_eq_getElem_cons hi, List.take_append_drop]
  · intro hs l u r hlr hu
    have hi : l.length < (units t).length := by simp [hlr]
    have hget : (units t)[l.length] = u := by simp [hlr]
    have htake : (units t).take l.length = l := by rw [hlr, List.take_left]
    have hl := hs l.length hi
    rw [hget, htake] at hl
    exact hl (List.contains_iff_mem.2 hu)

instance (front t : Text) : Decidable (SupportedBehind front t) :=
  decidable_of_iff _ supportedBehind_iff_forall_lt.symm

instance (t : Text) : Decidable (Supported t) :=
  inferInstanceAs (Decidable (SupportedBehind [] t))

theorem supportedBehind_append {x : Text} (hf : Keyed front) (hb : Keyed back) :
    SupportedBehind x (front ++ back) ↔
      SupportedBehind x front ∧ SupportedBehind (x ++ front) back := by
  unfold SupportedBehind
  rw [units_append hf hb]
  constructor
  · intro h
    refine ⟨fun l u r hl => h l u (r ++ units back) ?_, fun l u r hl hu => ?_⟩
    · rw [hl, List.append_assoc, List.cons_append]
    · have hall := h (units front ++ l) u r (by rw [hl, List.append_assoc]) hu
      rwa [List.flatten_append, flatten_units, ← List.append_assoc] at hall
  · rintro ⟨hfront, hback⟩ l u r hl hu
    rcases List.append_eq_append_iff.1 hl with ⟨m, rfl, hm⟩ | ⟨m, hm, hmr⟩
    · have hall := hback m u r hm hu
      rwa [List.append_assoc, ← flatten_units front, ← List.flatten_append] at hall
    · cases m with
      | nil =>
          rw [List.append_nil] at hm
          have hall := hback [] u r (by simpa using hmr.symm) hu
          rwa [List.flatten_nil, List.append_nil, ← flatten_units front, hm] at hall
      | cons v m =>
          obtain ⟨rfl, -⟩ := List.cons.inj hmr
          exact hfront l u m hm hu

theorem supported_append (hf : Keyed front) (hb : Keyed back) :
    Supported (front ++ back) ↔ Supported front ∧ SupportedBehind front back :=
  @supportedBehind_append front back [] hf hb

theorem closer?_ne_none_iff : closer? t ≠ none ↔ ∃ u us, units t = u :: us ∧ u ∈ slotClosers := by
  constructor
  · intro h
    obtain ⟨closer, hcloser⟩ := Option.ne_none_iff_exists'.1 h
    have hmem : closer ∈ slotClosers := List.mem_of_find?_eq_some hcloser
    obtain ⟨rest, rfl⟩ := Text.startsWith_iff.1 (List.find?_some hcloser)
    exact ⟨closer, _, units_closer_append hmem rest, hmem⟩
  · rintro ⟨u, us, hu, hmem⟩ hnone
    have hstarts : u <+: t := ⟨us.flatten, by rw [← flatten_units t, hu, List.flatten_cons]⟩
    exact List.find?_eq_none.1 hnone u hmem (Text.startsWith_iff.2 hstarts)

/-- Of the text in front, only what the first unit stands behind matters. -/
theorem SupportedBehind.supportedBehind_iff {x y : Text} (h : SupportedBehind x t)
    (hk : Keyed t) :
    SupportedBehind y t ↔ (closer? t ≠ none → endsWithValue y = true) := by
  rw [closer?_ne_none_iff]
  constructor
  · rintro hy ⟨u, us, hus, hu⟩
    simpa using hy [] u us hus hu
  · intro hy l u r hl hu
    by_cases hnil : l = []
    · subst hnil
      simpa using hy ⟨u, r, hl, hu⟩
    · rw [Keyed, hl] at hk
      have hkeyed : Keyed l.flatten := keyed_flatten (List.append_subset.1 hk).1
      have hne : l.flatten ≠ [] := by
        obtain ⟨v, l, rfl⟩ := List.exists_cons_of_ne_nil hnil
        have hv : v ∈ units t := hl ▸ List.mem_append_left _ List.mem_cons_self
        exact List.append_ne_nil_of_left_ne_nil (ne_nil_of_mem_units hv) _
      have hx := h l u r hl hu
      rwa [endsWithValue_append _ hkeyed hne] at hx ⊢

theorem supportedBehind_char {c : Char} (h : Head.read? [c] = none) (hc : [c] ∉ slotClosers)
    (front : Text) : SupportedBehind front [c] := by
  intro l u r hl hu
  rw [units_cons_of_char h, units_nil] at hl
  have hmem : u ∈ [[c]] := hl ▸ List.mem_append_right l List.mem_cons_self
  rw [List.mem_singleton.1 hmem] at hu
  exact absurd hu hc

theorem supportedBehind_blank (front : Text) : SupportedBehind front [blankSymbol] :=
  supportedBehind_char (by decide) (by decide) front

theorem supportedBehind_template (front : Text) (template : Template) :
    SupportedBehind front template.text ∧ endsWithValue (front ++ template.text) = true := by
  have key : ∀ template ∈ Template.all, SupportedBehind [] template.text ∧
      closer? template.text = none ∧ endsWithValue template.text = true := by
    decide +kernel
  obtain ⟨hnil, hcloser, hvalue⟩ := key template template.mem_all
  refine ⟨(hnil.supportedBehind_iff template.keyed_text).2 fun h => absurd hcloser h, ?_⟩
  rw [endsWithValue_append front template.keyed_text template.text_ne_nil, hvalue]

/-! ### Deletion -/

theorem Deletes.supported_delete_iff (h : b.Deletes front back) :
    Supported b.delete.text ↔ Supported (front ++ back) := by
  rw [h.text_delete]
  split
  · rename_i hnil
    have hcleared : Supported clearedText := supportedBehind_char (by decide) (by decide) []
    have hempty : Supported [] := by
      intro l u r h
      simp [units_nil] at h
    rw [hnil]
    exact iff_of_true hcleared hempty
  · rfl

section deletion

variable (hk : Keyed b.text) (hs : b.Settled) (hsupported : Supported b.text)
include hk hs hsupported

theorem supported_before_after : Supported b.before ∧ SupportedBehind b.before b.after := by
  rw [← b.before_append_after] at hsupported
  exact (supported_append (keyed_before hk hs) (keyed_after hk hs)).1 hsupported

theorem supported_of_before (h : b.before = front ++ back) (hf : Keyed front) (hb : Keyed back) :
    Supported front := by
  have hbefore := (supported_before_after hk hs hsupported).1
  rw [h] at hbefore
  exact ((supported_append hf hb).1 hbefore).1

/-- What is joined behind the cursor is supported there unless it begins with a suffix or a bar. -/
theorem supported_append_after (hf : Keyed front) (hfront : Supported front)
    (hvalue : closer? b.after ≠ none → endsWithValue front = true) :
    Supported (front ++ b.after) := by
  have hafter := (supported_before_after hk hs hsupported).2
  have hkafter := keyed_after hk hs
  exact (supported_append hf hkafter).2 ⟨hfront, (hafter.supportedBehind_iff hkafter).2 hvalue⟩

theorem Deletes.takesWhole_or_supported (h : b.Deletes front back) :
    b.TakesWhole front back ∨ Supported (front ++ back) := by
  have hbefore := keyed_before hk hs
  cases h with
  | @filled start template hfilled =>
      obtain ⟨front, back, hsplit, rfl, hfills⟩ :=
        Filled.exists_of_before? hbefore.withoutFinalBreak hfilled
      obtain ⟨hkfront, hkback⟩ := hfills.opens.keyed (hsplit ▸ hbefore)
      obtain ⟨htemplate, hvalue⟩ := supportedBehind_template front template
      have hfront := supported_of_before hk hs hsupported hsplit hkfront hkback
      rw [hsplit, List.take_left]
      exact .inr (supported_append_after hk hs hsupported (hkfront.append template.keyed_text)
        ((supported_append hkfront template.keyed_text).2 ⟨hfront, htemplate⟩) fun _ => hvalue)
  | whole hwhole => exact .inl hwhole
  | @operand remaining unit closer hunit hblank hcloser hvalue =>
      obtain ⟨hkremaining, hkunit⟩ := hunit.keyed hbefore
      have hremaining := supported_of_before hk hs hsupported hunit.before_eq hkremaining hkunit
      refine .inr (supported_append_after hk hs hsupported (hkremaining.append keyed_blank)
        ((supported_append hkremaining keyed_blank).2 ⟨hremaining, supportedBehind_blank _⟩)
        fun _ => ?_)
      rw [endsWithValue_append _ keyed_blank (List.cons_ne_nil _ _)]
      decide
  | unit hunit hcloser =>
      obtain ⟨hkremaining, hkunit⟩ := hunit.keyed hbefore
      have hremaining := supported_of_before hk hs hsupported hunit.before_eq hkremaining hkunit
      refine .inr (supported_append_after hk hs hsupported hkremaining hremaining fun hsome => ?_)
      exact (hcloser.resolve_left hsome).2

/-- Where a whole goes, what stands behind the cursor has to be supported by what stands in front of
the whole; a blank in its place would support it. -/
theorem TakesWhole.supported_iff (h : b.TakesWhole front back) :
    (Supported (front ++ back) ↔ (closer? back ≠ none → endsWithValue front = true)) ∧
      Supported (front ++ blankSymbol :: back) := by
  obtain ⟨hkfront, hkback⟩ := (Deletes.whole h).keyed hk hs
  obtain ⟨hfront, x, hback⟩ : Supported front ∧ ∃ x, SupportedBehind x back := by
    have hbefore := keyed_before hk hs
    have hafter := (supported_before_after hk hs hsupported).2
    cases h with
    | template hfilled hempty =>
        obtain ⟨front, template, hsplit, rfl⟩ :=
          exists_of_emptyTemplateBefore? hbefore.withoutFinalBreak hempty
        rw [hsplit, List.take_left] at hkfront ⊢
        exact ⟨supported_of_before hk hs hsupported hsplit hkfront template.keyed_text, _, hafter⟩
    | @slot remaining closer hunit hcloser =>
        refine ⟨supported_of_before hk hs hsupported hunit.before_eq hkfront keyed_blank, ?_⟩
        obtain ⟨htake, hdrop⟩ :=
          (keyed_after hk hs).take_drop (closerLength_mem_boundaries hcloser)
        rw [← List.take_append_drop (closerLength closer b.after) b.after] at hafter
        exact ⟨_, ((supportedBehind_append htake hdrop).1 hafter).2⟩
  constructor
  · rw [supported_append hkfront hkback, and_iff_right hfront, hback.supportedBehind_iff hkback]
  · rw [List.append_cons]
    refine (supported_append (hkfront.append keyed_blank) hkback).2
      ⟨(supported_append hkfront keyed_blank).2 ⟨hfront, supportedBehind_blank front⟩, ?_⟩
    refine (hback.supportedBehind_iff hkback).2 fun _ => ?_
    rw [endsWithValue_append _ keyed_blank (List.cons_ne_nil _ _)]
    decide

/-- A deletion leaves a keyed text, and a supported one unless it takes a whole away from in front
of a suffix or a bar where no value stands in front of the whole.  Then the suffix or the bar is
left behind, and a blank in the place of the whole would support it. -/
theorem supported_delete :
    Keyed b.delete.text ∧
      (Supported b.delete.text ↔ ∀ front back, b.TakesWhole front back →
        closer? back ≠ none → endsWithValue front = true) ∧
      ∀ front back, b.TakesWhole front back → closer? back ≠ none →
        endsWithValue front = false →
          b.delete.text = front ++ back ∧ Supported (front ++ blankSymbol :: back) := by
  refine ⟨keyed_delete hk hs, ⟨fun h front back hwhole => ?_, fun h => ?_⟩,
    fun front back hwhole hcloser hvalue => ⟨?_, (hwhole.supported_iff hk hs hsupported).2⟩⟩
  · rw [(Deletes.whole hwhole).supported_delete_iff] at h
    exact (hwhole.supported_iff hk hs hsupported).1.1 h
  · by_cases hbefore : b.before = []
    · rwa [delete_of_before hbefore]
    · obtain ⟨front, back, hdeletes⟩ := exists_deletes hbefore
      rw [hdeletes.supported_delete_iff]
      rcases hdeletes.takesWhole_or_supported hk hs hsupported with hwhole | hfine
      · exact (hwhole.supported_iff hk hs hsupported).1.2 (h front back hwhole)
      · exact hfine
  · rw [(Deletes.whole hwhole).text_delete, if_neg]
    refine List.append_ne_nil_of_right_ne_nil front ?_
    rintro rfl
    exact hcloser (by decide)

end deletion

/-- An empty root goes from between a number and a square, and the number supports the square. -/
theorem supported_delete_root :
    let b : Buffer := ⟨"5√□²".toList, 3, .idle⟩
    Keyed b.text ∧ b.Settled ∧ Supported b.text ∧ b.delete.text = "5²".toList ∧
      Supported b.delete.text := by
  intro b
  have hk : Keyed b.text := by decide +kernel
  have hs : b.Settled := ⟨List.cons_ne_nil _ _, by decide +kernel⟩
  have hsupported : Supported b.text := by decide +kernel
  have htext : b.delete.text = "5²".toList := by decide
  have hempty : emptyTemplateBefore? b.before = some 1 := by decide
  refine ⟨hk, hs, hsupported, htext, (supported_delete hk hs hsupported).2.1.2 ?_⟩
  intro front back hwhole hcloser
  cases hwhole with
  | template hfilled hfound =>
      obtain rfl := Option.some.inj (hempty.symm.trans hfound)
      decide
  | slot hunit =>
      rw [hunit.not_empty] at hempty
      cases hempty

/-- An empty root goes from in front of a square, and an empty square from in front of a cube. -/
theorem supported_delete_differs :
    let root : List Edit :=
      [.insert Template.root.text, .insert Template.square.text, .move .left, .delete]
    let square : List Edit := [.insert Template.square.text, .insert Template.cube.text,
      .move .left, .move .left, .delete]
    (∀ e ∈ root ++ square, e.IsKeyed) ∧
      (root.dropLast.foldl edited cleared).text = "√□²".toList ∧
      (root.foldl edited cleared).text = "²".toList ∧
      (square.dropLast.foldl edited cleared).text = "□²³".toList ∧
      (square.foldl edited cleared).text = "³".toList ∧
      Supported "√□²".toList ∧ Supported "□²³".toList ∧
      ¬Supported "²".toList ∧ ¬Supported "³".toList := by
  decide +kernel

end PocketCalculator.Buffer
