import PocketCalculator.Proofs.Symbol.Heads
import PocketCalculator.Proofs.Unit.Boundaries
import PocketCalculator.Text.DecimalDigit
import Mathlib.Data.List.Infix

/-! # Texts of key units

The keys of the calculator put whole units into a text, and no other units than those of
`keyUnits`.  Such texts can be joined at will: the units of the whole are those of the parts
(`units_append`), because no unit begins with what would complete a head across the joint
(`units_flatten_of_lasting`).

They cannot be cut at will.  A place inside of a head is recognised by what follows it, one of
`Head.rests`; a text `Opens` where it follows no such place, and there every text that ends with it
may be cut (`Opens.keyed`). -/

namespace PocketCalculator

/-! ### Units that last -/

theorem units_head_append (head : Head) (rest : Text) :
    units (head.text ++ rest) = head.text :: units rest := by
  have hread := head.read?_text_append rest
  obtain ⟨c, u, hu⟩ := List.exists_cons_of_ne_nil head.text_ne_nil
  rw [hu, List.cons_append] at hread ⊢
  rw [units_cons_of_head hread, hu]

/-- A unit that remains one among others of this kind.  Of the characters with which a head begins
only the sign of multiplication stands by itself, and the head that begins with it has a power sign,
which never does. -/
def Lasting (u : Text) : Prop :=
  (∃ head : Head, u = head.text) ∨ ∃ c, u = [c] ∧ c ≠ '^' ∧ (c ∈ headInitials → c = '×')

theorem not_lasting_power : ¬Lasting ['^'] := by
  have key : ∀ g ∈ Head.all, ['^'] ≠ g.text := by decide
  rintro (⟨head, h⟩ | ⟨c, h, hc, -⟩)
  · exact key head head.mem_all h
  · cases h
    exact hc rfl

/-- Lasting units put together are found again. -/
theorem units_flatten_of_lasting {us : List Text} (h : ∀ u ∈ us, Lasting u) :
    units us.flatten = us := by
  have key : ∀ g ∈ Head.all, g.text.head? = some '×' → g.text = ['×', '1', '0', '^'] := by decide
  induction us with
  | nil => exact units_nil
  | cons u us ih =>
      have hrest := ih fun v hv => h v (List.mem_cons_of_mem u hv)
      rw [List.flatten_cons]
      rcases h u List.mem_cons_self with ⟨head, rfl⟩ | ⟨c, rfl, -, hc⟩
      · rw [units_head_append, hrest]
      · show units (c :: us.flatten) = [c] :: us
        rw [units_cons_of_char, hrest]
        refine Head.read?_eq_none fun head hp => ?_
        obtain ⟨d, hd, w, hw⟩ := head.exists_initial
        rw [hw, List.cons_prefix_cons] at hp
        obtain ⟨rfl, rest, hp⟩ := hp
        have htext := key head head.mem_all (by rw [hw, hc hd]; rfl)
        rw [hw] at htext
        cases htext
        rw [← hp, List.cons_append, List.cons_append, List.cons_append,
          units_cons_of_char (Head.read?_cons_eq_none _ (by decide)),
          units_cons_of_char (Head.read?_cons_eq_none _ (by decide)),
          units_cons_of_char (Head.read?_cons_eq_none _ (by decide))] at hrest
        refine not_lasting_power (h _ (List.mem_cons_of_mem _ ?_))
        rw [← hrest]
        exact List.mem_cons_of_mem _ (List.mem_cons_of_mem _ List.mem_cons_self)

/-! ### Units of the keys -/

/-- The units of one character. -/
def keyChars : Text :=
  ['0', '1', '2', '3', '4', '5', '6', '7', '8', '9', '.', '+', '-', '×', '÷', '/', '(', ')', '%',
    blankSymbol, rootSymbol, '²', '³', '!']

/-- The units that the keys of the calculator make a text of. -/
def keyUnits : List Text :=
  keyChars.map ([·]) ++ Head.all.map Head.text

theorem mem_keyUnits_iff {u : Text} :
    u ∈ keyUnits ↔ (∃ c ∈ keyChars, u = [c]) ∨ ∃ head : Head, u = head.text := by
  simp only [keyUnits, List.mem_append, List.mem_map, eq_comm, Head.mem_all, true_and]

theorem text_mem_keyUnits (head : Head) : head.text ∈ keyUnits :=
  mem_keyUnits_iff.2 (.inr ⟨head, rfl⟩)

/-- A text is keyed when all of its units are those of the keys. -/
def Keyed (t : Text) : Prop :=
  units t ⊆ keyUnits

instance (t : Text) : Decidable (Keyed t) :=
  inferInstanceAs (Decidable (∀ u ∈ units t, u ∈ keyUnits))

theorem keyed_nil : Keyed [] := by
  rw [Keyed, units_nil]
  exact List.nil_subset _

theorem keyed_cons_iff {c : Char} (hc : c ∉ headInitials) {t : Text} :
    Keyed (c :: t) ↔ [c] ∈ keyUnits ∧ Keyed t := by
  rw [Keyed, units_cons_of_char (Head.read?_cons_eq_none t hc), List.cons_subset, Keyed]

theorem Keyed.head?_ne_power {t : Text} (h : Keyed t) : t.head? ≠ some '^' := by
  cases t with
  | nil => exact Option.some_ne_none _ ∘ Eq.symm
  | cons c t =>
      rintro ⟨⟩
      exact absurd ((keyed_cons_iff (by decide)).1 h).1 (by decide)

theorem keyed_char {c : Char} (h : Head.read? [c] = none) (hu : [c] ∈ keyUnits) : Keyed [c] := by
  rw [Keyed, units_cons_of_char h, units_nil]
  exact List.cons_subset.2 ⟨hu, List.nil_subset _⟩

theorem keyed_blank : Keyed [blankSymbol] :=
  keyed_char (by decide) (by decide)

theorem keyed_head (head : Head) : Keyed head.text := by
  have h := units_head_append head []
  rw [List.append_nil, units_nil] at h
  rw [Keyed, h]
  exact List.cons_subset.2 ⟨text_mem_keyUnits head, List.nil_subset _⟩

/-! ### Joining -/

theorem lasting_of_mem_keyUnits {u : Text} (h : u ∈ keyUnits) : Lasting u := by
  have key : keyChars.all (fun c => c ≠ '^' ∧ (c ∈ headInitials → c = '×')) = true := by decide
  rcases mem_keyUnits_iff.1 h with ⟨c, hc, rfl⟩ | ⟨head, rfl⟩
  · exact .inr ⟨c, rfl, of_decide_eq_true (List.all_eq_true.1 key c hc)⟩
  · exact .inl ⟨head, rfl⟩

theorem units_flatten {us : List Text} (h : us ⊆ keyUnits) : units us.flatten = us :=
  units_flatten_of_lasting fun _ hu => lasting_of_mem_keyUnits (h hu)

theorem keyed_flatten {us : List Text} (h : us ⊆ keyUnits) : Keyed us.flatten := by
  rwa [Keyed, units_flatten h]

section parts

variable {front back : Text}

theorem units_append (hf : Keyed front) (hb : Keyed back) :
    units (front ++ back) = units front ++ units back := by
  have h := units_flatten (List.append_subset.2 ⟨hf, hb⟩)
  rwa [List.flatten_append, flatten_units, flatten_units] at h

theorem Keyed.append (hf : Keyed front) (hb : Keyed back) : Keyed (front ++ back) := by
  rw [Keyed, units_append hf hb]
  exact List.append_subset.2 ⟨hf, hb⟩

theorem Keyed.length_mem_boundaries (hf : Keyed front) (hb : Keyed back) :
    front.length ∈ boundaries (front ++ back) := by
  refine mem_boundaries_iff.2 ⟨units front, units back, units_append hf hb, ?_⟩
  rw [flatten_units]

/-! ### Cutting -/

theorem Keyed.of_mem_boundaries (h : Keyed (front ++ back))
    (hp : front.length ∈ boundaries (front ++ back)) : Keyed front ∧ Keyed back := by
  obtain ⟨l, hl, rfl⟩ := units_of_mem_boundaries hp
  rw [Keyed, hl] at h
  obtain ⟨hfront, hback⟩ := List.append_subset.1 h
  exact ⟨keyed_flatten hfront, hback⟩

theorem Keyed.take_drop {t : Text} (h : Keyed t) {p : Nat} (hp : p ∈ boundaries t) :
    Keyed (t.take p) ∧ Keyed (t.drop p) := by
  have hlen : (t.take p).length = p := List.length_take_of_le (le_length_of_mem_boundaries hp)
  apply Keyed.of_mem_boundaries
  · rwa [List.take_append_drop]
  · rwa [List.take_append_drop, hlen]

/-- What follows the places inside of heads. -/
def Head.rests : List Text :=
  all.flatMap fun head => (List.range (head.text.length - 1)).map fun n => head.text.drop (n + 1)

theorem Head.mem_rests {head : Head} {l r : Text} (h : head.text = l ++ r) (hl : l ≠ [])
    (hr : r ≠ []) : r ∈ rests := by
  have hlpos := List.length_pos_iff.2 hl
  have hrpos := List.length_pos_iff.2 hr
  refine List.mem_flatMap.2 ⟨head, head.mem_all, List.mem_map.2 ⟨l.length - 1, ?_, ?_⟩⟩
  · rw [List.mem_range, h, List.length_append]
    omega
  · rw [h, Nat.sub_add_cancel hlpos, List.drop_left]

/-- A text before which every keyed text may be cut. -/
def Opens (back : Text) : Prop :=
  ∀ front, Keyed (front ++ back) → front.length ∈ boundaries (front ++ back)

theorem Opens.keyed (h : Opens back) (hk : Keyed (front ++ back)) : Keyed front ∧ Keyed back :=
  hk.of_mem_boundaries (h front hk)

/-- Inside of a head, one of its rests follows, and then whole units again. -/
theorem opens_of_rests (h : ∀ r ∈ Head.rests, ∀ rest, back = r ++ rest → ¬Keyed rest) :
    Opens back := by
  intro front hk
  rcases List.flatten_eq_append_iff.1 (flatten_units (front ++ back)) with
    ⟨l, r, hlr, hf, -⟩ | ⟨l, u, c, v, r, hlr, hf, hb⟩
  · exact mem_boundaries_iff.2 ⟨l, r, hlr, by rw [hf]⟩
  · rw [Keyed, hlr] at hk
    obtain ⟨hunit, hr⟩ := List.cons_subset.1 (List.append_subset.1 hk).2
    by_cases hu : u = []
    · subst hu
      exact mem_boundaries_iff.2 ⟨l, _, hlr, by rw [hf, List.append_nil]⟩
    · rcases mem_keyUnits_iff.1 hunit with ⟨d, -, hd⟩ | ⟨head, hhead⟩
      · have hlen := congrArg List.length hd
        have hpos := List.length_pos_iff.2 hu
        simp only [List.length_append, List.length_cons, List.length_nil] at hlen
        omega
      · have hmem := Head.mem_rests hhead.symm hu (List.cons_ne_nil c v)
        exact absurd (keyed_flatten hr) (h _ hmem _ hb)

theorem opens_of_not_prefix (h : ∀ r ∈ Head.rests, ¬r <+: back) : Opens back :=
  opens_of_rests fun r hr rest hrest _ => h r hr ⟨rest, hrest.symm⟩

theorem opens_nil : Opens [] := by
  have key : [] ∉ Head.rests := by decide
  refine opens_of_not_prefix fun r hr hp => key ?_
  rwa [List.prefix_nil.1 hp] at hr

theorem opens_cons {c : Char} (hc : ∀ r ∈ Head.rests, r.head? ≠ some c) (t : Text) :
    Opens (c :: t) := by
  refine opens_of_not_prefix fun r hr hp => ?_
  cases r with
  | nil => exact absurd hr (by decide)
  | cons d r =>
      obtain ⟨rfl, -⟩ := List.cons_prefix_cons.1 hp
      exact hc _ hr rfl

/-- A head that goes on with a digit has a power sign. -/
theorem opens_run {run t : Text} (hne : run ≠ []) (hrun : ∀ c ∈ run, isNumeralChar c = true)
    (ht : '^' ∉ t) : Opens (run ++ t) := by
  have key : ∀ r ∈ Head.rests, r.head?.any isNumeralChar = true → '^' ∈ r := by decide
  have hpower : '^' ∉ run ++ t := by
    intro hm
    rcases List.mem_append.1 hm with hm | hm
    · exact absurd (hrun _ hm) (by decide)
    · exact ht hm
  obtain ⟨c, run, rfl⟩ := List.exists_cons_of_ne_nil hne
  refine opens_of_not_prefix fun r hr hp => ?_
  cases r with
  | nil => exact absurd hr (by decide)
  | cons d r =>
      have hd : d = c := (List.cons_prefix_cons.1 hp).1
      have hc := hrun c List.mem_cons_self
      exact hpower (hp.subset (key _ hr (by simpa [hd] using hc)))

theorem opens_ansName (t : Text) : Opens (ansName ++ t) := by
  have key : ∀ r ∈ Head.rests, ¬r.take 3 <+: ansName := by decide
  exact opens_of_not_prefix fun r hr hp => key r hr (List.IsPrefix.take hp 3)

theorem opens_circular (f : CircularFunction) (t : Text) : Opens (f.text ++ t) := by
  rcases f with ⟨_ | _ | _, inverse⟩
  · -- the name of the last result ends as the sine begins, but no unit begins as it goes on
    have key : ∀ r ∈ Head.rests, r.take 2 <+: ['s', 'i'] → r = ['s'] := by decide
    refine opens_of_rests fun r hr rest hrest hkeyed => ?_
    have hp : r <+: 's' :: 'i' :: 'n' :: ((if inverse then inverseMark else []) ++ t) :=
      ⟨rest, hrest.symm⟩
    rw [key r hr (List.IsPrefix.take hp 2)] at hrest
    obtain ⟨-, rfl⟩ := List.cons.inj hrest
    have hi := ((keyed_cons_iff (by decide)).1 hkeyed).1
    revert hi
    decide
  · exact opens_cons (by decide) _
  · exact opens_cons (by decide) _

end parts
end PocketCalculator
