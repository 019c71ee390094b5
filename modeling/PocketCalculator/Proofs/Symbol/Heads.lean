import PocketCalculator.Symbol

/-! # Where heads stand

A head is read off only where its spelling stands, so a text in which no spelling fits begins with
no head (`Head.read?_eq_none`); the first character decides most cases.  Blanks behind a text make
no difference to the head in front of it (`Head.read?_append_blanks`), because no spelling contains
a blank. -/

namespace PocketCalculator

/-! ### Spellings of heads -/

/-- The first characters of the heads. -/
def headInitials : Text :=
  ['s', 'c', 't', '×', 'l', 'e', 'a', '⁻']

namespace Head

theorem mem_all (h : Head) : h ∈ all := by
  rcases h with ⟨⟨_ | _ | _, _ | _⟩⟩ | (_ | _ | _ | _) | _ | _ <;> decide

theorem forall_head {P : Head → Prop} (h : ∀ g ∈ all, P g) (g : Head) : P g :=
  h g g.mem_all

theorem exists_initial (h : Head) : ∃ c ∈ headInitials, ∃ rest, h.text = c :: rest := by
  have key : ∀ g ∈ all, headInitials.any (fun c => g.text.head? = some c) = true := by decide
  obtain ⟨c, hc, hh⟩ := List.any_eq_true.1 (forall_head key h)
  exact ⟨c, hc, List.head?_eq_some_iff.1 (of_decide_eq_true hh)⟩

theorem isBlank_of_mem_text {h : Head} {c : Char} (hc : c ∈ h.text) : isBlank c = false := by
  have key : ∀ g ∈ all, g.text.all (fun c => isBlank c = false) = true := by decide
  exact of_decide_eq_true (List.all_eq_true.1 (forall_head key h) c hc)

theorem slash_not_mem (h : Head) : '/' ∉ h.text := by
  have key : ∀ g ∈ all, '/' ∉ g.text := by decide
  exact forall_head key h

/-! ### Beginnings without a head -/

/-- No head is read off where none stands. -/
theorem read?_eq_none {t : Text} (h : ∀ head : Head, ¬head.text <+: t) : read? t = none := by
  cases hr : read? t with
  | none => rfl
  | some r =>
      obtain ⟨head, rest⟩ := r
      exact absurd ⟨rest, (read?_eq_some hr).symm⟩ (h head)

theorem read?_cons_eq_none {c : Char} (rest : Text) (h : c ∉ headInitials) :
    read? (c :: rest) = none := by
  refine read?_eq_none fun head hp => ?_
  obtain ⟨d, hd, r, hr⟩ := head.exists_initial
  rw [hr, List.cons_prefix_cons] at hp
  exact h (hp.1 ▸ hd)

theorem read?_text_append (h : Head) (rest : Text) : read? (h.text ++ rest) = some (h, rest) := by
  rcases h with ⟨⟨_ | _ | _, _ | _⟩⟩ | (_ | _ | _ | _) | _ | _
  all_goals
    simp [read?, spellings, all, CircularFunction.all, Circular.all, text, CircularFunction.text,
      Circular.text, Marker.text, inverseMark, ansName, Text.after?]

end Head

/-! ### Blanks behind a text -/

theorem Text.after?_append_blanks {head t blanks : Text} (hh : ∀ c ∈ head, isBlank c = false)
    (hb : ∀ c ∈ blanks, isBlank c = true) :
    after? head (t ++ blanks) = (after? head t).map (· ++ blanks) := by
  induction head generalizing t with
  | nil => rfl
  | cons c head ih =>
      cases t with
      | nil =>
          cases blanks with
          | nil => rfl
          | cons d blanks =>
              have hne : c ≠ d := by
                rintro rfl
                have := hb c List.mem_cons_self
                rw [hh c List.mem_cons_self] at this
                cases this
              simp only [List.nil_append, after?, if_neg hne, Option.map_none]
      | cons d t =>
          rw [List.cons_append, after?, after?]
          split
          · exact ih fun x hx => hh x (List.mem_cons_of_mem c hx)
          · rfl

namespace Head

theorem read?_append_blanks {blanks : Text} (hb : ∀ c ∈ blanks, isBlank c = true) (t : Text) :
    read? (t ++ blanks) = (read? t).map fun r => (r.1, r.2 ++ blanks) := by
  rw [read?, read?, List.map_findSome?]
  have hstep : ∀ l ⊆ spellings,
      (l.findSome? fun s => (Text.after? s.2 (t ++ blanks)).map (s.1, ·)) =
        l.findSome? (Option.map (fun r : Head × Text => (r.1, r.2 ++ blanks)) ∘
          fun s => (Text.after? s.2 t).map (s.1, ·)) := by
    intro l hl
    induction l with
    | nil => rfl
    | cons s l ih =>
        obtain ⟨g, -, rfl⟩ := List.mem_map.1 (hl List.mem_cons_self)
        rw [List.findSome?_cons, List.findSome?_cons, ih (List.subset_of_cons_subset hl),
          Text.after?_append_blanks (fun c hc => isBlank_of_mem_text hc) hb, Function.comp_apply,
          Option.map_map, Option.map_map]
        rfl
  exact hstep spellings (List.Subset.refl _)

end Head
end PocketCalculator
