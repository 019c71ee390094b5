import PocketCalculator.Proofs.Template.Separation
import PocketCalculator.Proofs.Template.Slots
import Mathlib.Data.List.Forall2

/-! # Numbers that grow by a digit

When a digit is typed behind a digit, the number there becomes longer.  A fraction that has the
number as one of its halves grows with it, and every other fraction stays or moves: the fractions of
the two texts correspond one by one (`forall₂_fractions`), so the fraction that is found at the
place before is the one that is found behind the digit afterwards (`rel_findFraction?`).

The digit comes to be in no pattern of an open slot, so no slot comes near to the place
(`slotNear_of_lengthened`). -/

namespace PocketCalculator

variable {c d : Char}

/-! ### Halves -/

theorem Text.after?_append_cons {head : Text} (hd : d ∉ head) (u v : Text) :
    Text.after? head (u ++ d :: v) = (Text.after? head u).map (· ++ d :: v) := by
  induction head generalizing u with
  | nil => rfl
  | cons e head ih =>
      rw [List.mem_cons, not_or] at hd
      cases u with
      | nil => simp [Text.after?, Ne.symm hd.1]
      | cons a u =>
          rw [List.cons_append, Text.after?, Text.after?, ih hd.2]
          split <;> rfl

/-- What becomes of the half at the beginning of a text when the character `c` is put in behind
`d`: the half ends in front of them, or it is a number that grows. -/
inductive GrowsHalf (u : Text) (d c : Char) (v : Text) :
    Option (Text × Text) → Option (Text × Text) → Prop where
  | none : GrowsHalf u d c v none none
  | before {half rest} (hu : u = half ++ rest) :
      GrowsHalf u d c v (some (half, rest ++ d :: v)) (some (half, rest ++ d :: c :: v))
  | number {r rest} (hplain : ∀ x ∈ u ++ d :: r, isPlainNumeralChar x = true)
      (hv : v = r ++ rest) :
      GrowsHalf u d c v (some (u ++ d :: r, rest)) (some (u ++ d :: c :: r, rest))

/-- The number at the beginning of a text, if there is one, and what follows it. -/
def readNumber? (t : Text) : Option (Text × Text) :=
  match t.takeWhile isPlainNumeralChar with
  | [] => none
  | run => some (run, t.dropWhile isPlainNumeralChar)

theorem readNumber?_append {run rest : Text} (hrun : ∀ x ∈ run, isPlainNumeralChar x = true)
    (hrest : ∀ x ∈ rest.head?, isPlainNumeralChar x = false) :
    readNumber? (run ++ rest) = if run = [] then none else some (run, rest) := by
  obtain ⟨htake, hdrop⟩ := Text.takeWhile_append hrun hrest
  rw [readNumber?, htake, hdrop]
  cases run <;> rfl

section digits

variable (hd : isPlainNumeralChar d = true) (hc : isPlainNumeralChar c = true)
include hd hc

theorem growsHalf_number (u v : Text) :
    GrowsHalf u d c v (readNumber? (u ++ d :: v)) (readNumber? (u ++ d :: c :: v)) := by
  obtain ⟨run, w, rfl, hrun, hw⟩ : ∃ run w, u = run ++ w ∧
      (∀ x ∈ run, isPlainNumeralChar x = true) ∧ ∀ x ∈ w.head?, isPlainNumeralChar x = false :=
    ⟨_, _, List.takeWhile_append_dropWhile.symm, fun _ hx => List.mem_takeWhile_imp hx,
      Text.head?_dropWhile _ u⟩
  cases w with
  | nil =>
      -- the number goes on up to the digit and behind it
      obtain ⟨r, rest, rfl, hr, hrest⟩ : ∃ r rest, v = r ++ rest ∧
          (∀ x ∈ r, isPlainNumeralChar x = true) ∧
          ∀ x ∈ rest.head?, isPlainNumeralChar x = false :=
        ⟨_, _, List.takeWhile_append_dropWhile.symm, fun _ hx => List.mem_takeWhile_imp hx,
          Text.head?_dropWhile _ v⟩
      have hplain : ∀ x ∈ run ++ d :: r, isPlainNumeralChar x = true := by
        simp only [List.mem_append, List.mem_cons]
        rintro x (hx | rfl | hx)
        · exact hrun x hx
        · exact hd
        · exact hr x hx
      have hgrown : ∀ x ∈ run ++ d :: c :: r, isPlainNumeralChar x = true := by
        simp only [List.mem_append, List.mem_cons]
        rintro x (hx | rfl | rfl | hx)
        · exact hrun x hx
        · exact hd
        · exact hc
        · exact hr x hx
      have hshort := readNumber?_append hplain hrest
      have hlong := readNumber?_append hgrown hrest
      rw [if_neg (by simp), List.append_assoc, List.cons_append] at hshort hlong
      rw [List.append_nil, hshort]
      rw [List.cons_append] at hlong
      rw [hlong]
      exact .number hplain rfl
  | cons e w =>
      have hstop (t : Text) : ∀ x ∈ (e :: w ++ t).head?, isPlainNumeralChar x = false := hw
      rw [List.append_assoc, List.append_assoc, readNumber?_append hrun (hstop _),
        readNumber?_append hrun (hstop _)]
      split
      · exact .none
      · exact .before rfl

theorem growsHalf (u v : Text) :
    GrowsHalf u d c v (readHalf? (u ++ d :: v)) (readHalf? (u ++ d :: c :: v)) := by
  have hblank : d ∉ [blankSymbol] := by
    intro h
    rw [List.mem_singleton.1 h] at hd
    exact absurd hd (by decide)
  have hans : d ∉ ansName := by
    have key : ansName.any isPlainNumeralChar = false := by decide
    exact fun h => List.any_eq_false.1 key d h hd
  unfold readHalf?
  rw [Text.after?_append_cons hblank, Text.after?_append_cons hblank,
    Text.after?_append_cons hans, Text.after?_append_cons hans]
  cases hb : Text.after? [blankSymbol] u with
  | some rest => exact .before (Text.after?_eq_some_iff.1 hb)
  | none =>
      cases ha : Text.after? ansName u with
      | some rest => exact .before (Text.after?_eq_some_iff.1 ha)
      | none => exact growsHalf_number hd hc u v

end digits

/-! ### Fractions -/

/-- What becomes of the fraction at the beginning of a text when the character `c` is put in behind
`d`: the fraction ends in front of them, or one of its halves is a number that grows. -/
inductive GrowsFraction (u : Text) (d c : Char) (v : Text) :
    Option (Text × Text) → Option (Text × Text) → Prop where
  | none : GrowsFraction u d c v none none
  | before {n m rest} (hu : u = n ++ '/' :: (m ++ rest)) :
      GrowsFraction u d c v (some (n, m)) (some (n, m))
  | numerator {r m rest} (hplain : ∀ x ∈ u ++ d :: r, isPlainNumeralChar x = true)
      (hv : v = r ++ '/' :: (m ++ rest)) :
      GrowsFraction u d c v (some (u ++ d :: r, m)) (some (u ++ d :: c :: r, m))
  | denominator {n l r rest} (hu : u = n ++ '/' :: l)
      (hplain : ∀ x ∈ l ++ d :: r, isPlainNumeralChar x = true) (hv : v = r ++ rest) :
      GrowsFraction u d c v (some (n, l ++ d :: r)) (some (n, l ++ d :: c :: r))

theorem readFraction?_eq (t : Text) : readFraction? t =
    (readHalf? t).bind fun n => (Text.after? ['/'] n.2).bind fun behind =>
      (readHalf? behind).map fun m => (n.1, m.1) := by
  unfold readFraction?
  simp only [Option.bind_eq_bind, Option.map_eq_bind, Option.pure_def, Function.comp_def]

section digits

variable (hd : isPlainNumeralChar d = true) (hc : isPlainNumeralChar c = true)
include hd hc

theorem growsFraction (u v : Text) :
    GrowsFraction u d c v (readFraction? (u ++ d :: v)) (readFraction? (u ++ d :: c :: v)) := by
  have hslash : d ∉ ['/'] := by
    intro h
    rw [List.mem_singleton.1 h] at hd
    exact absurd hd (by decide)
  rw [readFraction?_eq, readFraction?_eq]
  have hn := growsHalf hd hc u v
  generalize readHalf? (u ++ d :: v) = n at hn
  generalize readHalf? (u ++ d :: c :: v) = n' at hn
  cases hn with
  | none => exact .none
  | @before half rest hu =>
      simp only [Option.bind_some, Text.after?_append_cons hslash]
      cases hbar : Text.after? ['/'] rest with
      | none => exact .none
      | some l =>
          simp only [Option.map_some, Option.bind_some]
          obtain rfl : rest = '/' :: l := Text.after?_eq_some_iff.1 hbar
          have hm := growsHalf hd hc l v
          generalize readHalf? (l ++ d :: v) = m at hm
          generalize readHalf? (l ++ d :: c :: v) = m' at hm
          cases hm with
          | none => exact .none
          | before hl => exact .before (hl ▸ hu)
          | number hplain hv => exact .denominator hu hplain hv
  | @number r rest hplain hv =>
      simp only [Option.bind_some]
      cases hbar : Text.after? ['/'] rest with
      | none => exact .none
      | some behind =>
          simp only [Option.bind_some]
          cases hm : readHalf? behind with
          | none => exact .none
          | some m =>
              obtain ⟨m, rest'⟩ := m
              have hbehind : v = r ++ '/' :: (m ++ rest') := by
                rw [hv, Text.after?_eq_some_iff.1 hbar, (readHalf?_eq_some hm).1]
                rfl
              exact .numerator hplain hbehind

end digits

theorem fractionsFrom_drop (start skip : Nat) (t : Text) :
    fractionsFrom start skip t = fractionsFrom (start + skip) 0 (t.drop skip) := by
  induction t generalizing start skip with
  | nil => simp [fractionsFrom]
  | cons a t ih =>
      cases skip with
      | zero => rfl
      | succ skip =>
          rw [fractionsFrom, ih, List.drop_succ_cons, Nat.add_right_comm]
          rfl

/-- Behind a fraction the search goes on. -/
theorem fractionsFrom_of_some {n m rest : Text}
    (h : readFraction? (n ++ '/' :: (m ++ rest)) = some (n, m)) (start : Nat) :
    fractionsFrom start 0 (n ++ '/' :: (m ++ rest)) =
      ⟨start, n, m⟩ :: fractionsFrom (start + (n.length + 1 + m.length)) 0 rest := by
  cases hn : n ++ '/' :: (m ++ rest) with
  | nil => simp at hn
  | cons a t =>
      have hdrop : t.drop (n.length + m.length) = rest := by
        have hsplit : (n ++ '/' :: m) ++ rest = a :: t := by simp [← hn]
        have hlength : (n ++ '/' :: m).length = n.length + m.length + 1 := by simp; omega
        rw [← List.drop_succ_cons (a := a), ← hsplit, ← hlength, List.drop_left]
      rw [hn] at h
      rw [fractionsFrom, h]
      dsimp only
      rw [fractionsFrom_drop]
      simp only [FractionSpan.length]
      rw [show n.length + 1 + m.length - 1 = n.length + m.length by omega, hdrop]
      congr 2
      omega

namespace FractionSpan

/-- How a fraction of a text changes when the character `c` is put in at the place `k`, in which a
number ends or goes on: it stays, it moves, or the number grows in one of its halves. -/
inductive Lengthens (k : Nat) (c : Char) (f : FractionSpan) : FractionSpan → Prop where
  | before (hk : f.stop < k) : Lengthens k c f f
  | behind (hk : k ≤ f.start) : Lengthens k c f (f.shift 1)
  | number {f' l d r} (h : Half) (hstart : f'.start = f.start) (hf : f.half h = l ++ d :: r)
      (hf' : f'.half h = l ++ d :: c :: r) (hother : f'.half h.other = f.half h.other)
      (hplain : ∀ x ∈ f.half h, isPlainNumeralChar x = true)
      (hk : k = f.halfStart h + l.length + 1) : Lengthens k c f f'

end FractionSpan

open FractionSpan

theorem forall₂_behind {k start moved : Nat} (hk : k ≤ start) (hm : moved = start + 1) (c : Char)
    (t : Text) :
    List.Forall₂ (Lengthens k c) (fractionsFrom start 0 t) (fractionsFrom moved 0 t) := by
  rw [hm, fractionsFrom_add, List.forall₂_map_right_iff, List.forall₂_same]
  intro f hf
  have hstart := le_start_of_mem_fractionsFrom hf
  exact .behind (by omega)

theorem forall₂_fractionsFrom (hd : isPlainNumeralChar d = true) (hc : isPlainNumeralChar c = true)
    (start : Nat) (u v : Text) :
    List.Forall₂ (Lengthens (start + u.length + 1) c) (fractionsFrom start 0 (u ++ d :: v))
      (fractionsFrom start 0 (u ++ d :: c :: v)) := by
  induction hu : u.length using Nat.strong_induction_on generalizing start u with
  | _ n ih =>
  subst hu
  have hgrows := growsFraction hd hc u v
  generalize hread : readFraction? (u ++ d :: v) = f at hgrows
  generalize hread' : readFraction? (u ++ d :: c :: v) = f' at hgrows
  cases hgrows with
  | none =>
      cases u with
      | nil =>
          have hread'' := readFraction?_eq_none_of_cons hd hc hread'
          rw [List.nil_append, List.nil_append, fractionsFrom_of_none hread,
            fractionsFrom_of_none hread', fractionsFrom_of_none hread'']
          exact forall₂_behind (Nat.le_refl _) rfl c v
      | cons a u =>
          have hrest := ih u.length (by simp) (start + 1) u rfl
          rw [List.cons_append] at hread hread' ⊢
          rw [List.cons_append, fractionsFrom_of_none hread, fractionsFrom_of_none hread',
            List.length_cons]
          rwa [show start + (u.length + 1) + 1 = start + 1 + u.length + 1 by omega]
  | @before n m rest hu =>
      subst hu
      have hrest := ih rest.length (by simp; omega) (start + (n.length + 1 + m.length)) rest rfl
      simp only [List.append_assoc, List.cons_append] at hread hread' ⊢
      rw [fractionsFrom_of_some hread, fractionsFrom_of_some hread']
      have hk : start + (n ++ '/' :: (m ++ rest)).length + 1 =
          start + (n.length + 1 + m.length) + rest.length + 1 := by
        simp
        omega
      rw [hk]
      refine .cons (.before ?_) hrest
      simp only [stop, FractionSpan.length]
      omega
  | @numerator r m rest hplain hv =>
      subst hv
      have ht : u ++ d :: (r ++ '/' :: (m ++ rest)) = (u ++ d :: r) ++ '/' :: (m ++ rest) := by
        simp
      have ht' : u ++ d :: c :: (r ++ '/' :: (m ++ rest)) =
          (u ++ d :: c :: r) ++ '/' :: (m ++ rest) := by simp
      rw [ht] at hread ⊢
      rw [ht'] at hread' ⊢
      rw [fractionsFrom_of_some hread, fractionsFrom_of_some hread']
      exact .cons (.number .numerator rfl rfl rfl rfl hplain rfl)
        (forall₂_behind (by simp; omega) (by simp; omega) c rest)
  | @denominator n l r rest hu hplain hv =>
      subst hu hv
      have ht : n ++ '/' :: l ++ d :: (r ++ rest) = n ++ '/' :: ((l ++ d :: r) ++ rest) := by simp
      have ht' : n ++ '/' :: l ++ d :: c :: (r ++ rest) =
          n ++ '/' :: ((l ++ d :: c :: r) ++ rest) := by simp
      rw [ht] at hread ⊢
      rw [ht'] at hread' ⊢
      rw [fractionsFrom_of_some hread, fractionsFrom_of_some hread']
      refine .cons (.number .denominator rfl rfl rfl rfl hplain ?_)
        (forall₂_behind (by simp; omega) (by simp; omega) c rest)
      simp [halfStart]
      omega

/-- When a digit is typed behind a digit, the fractions of the text correspond one by one. -/
theorem forall₂_fractions (hd : isPlainNumeralChar d = true) (hc : isPlainNumeralChar c = true)
    (u v : Text) :
    List.Forall₂ (Lengthens (u.length + 1) c) (fractions (u ++ d :: v))
      (fractions (u ++ d :: c :: v)) := by
  have h := forall₂_fractionsFrom hd hc 0 u v
  rwa [Nat.zero_add] at h

/-! ### What is kept -/

theorem FractionSpan.touches_iff {f : FractionSpan} {place : Nat} :
    f.touches place = true ↔ f.start ≤ place ∧ place ≤ f.stop := by
  simp [touches]

namespace FractionSpan.Lengthens

variable {f f' : FractionSpan} {k : Nat}

theorem touches_eq (h : Lengthens k c f f') : f'.touches (k + 1 : Nat) = f.touches k := by
  rw [Bool.eq_iff_iff, touches_iff, touches_iff]
  cases h with
  | before hk => omega
  | behind hk =>
      simp only [shift, stop, FractionSpan.length]
      omega
  | @number f' l d r h hstart hf hf' hother hplain hk =>
      have hlength := congrArg List.length hf
      have hlength' := congrArg List.length hf'
      have hother := congrArg List.length hother
      cases h <;>
        simp only [half, Half.other, halfStart, stop, FractionSpan.length, List.length_append,
          List.length_cons] at * <;> omega

theorem half_eq_iff (h : Lengthens k c f f') {w : Text}
    (hw : w.any isPlainNumeralChar = false) (x : Half) : f'.half x = w ↔ f.half x = w := by
  cases h with
  | before hk => rfl
  | behind hk => cases x <;> rfl
  | @number f' l d r h hstart hf hf' hother hplain hk =>
      have hd : d ∉ w := by
        intro hmem
        have hd := hplain d (by simp [hf])
        exact List.any_eq_false.1 hw d hmem hd
      have hnot : f.half h ≠ w := by
        rintro rfl
        exact hd (by simp [hf])
      have hnot' : f'.half h ≠ w := by
        rintro rfl
        exact hd (by simp [hf'])
      cases x <;> cases h <;> simp_all only [half, Half.other]

theorem half_eq_blank_iff (h : Lengthens k c f f') (x : Half) :
    f'.half x = [blankSymbol] ↔ f.half x = [blankSymbol] :=
  h.half_eq_iff (by decide) x

theorem half_eq_ansName_iff (h : Lengthens k c f f') (x : Half) :
    f'.half x = ansName ↔ f.half x = ansName :=
  h.half_eq_iff (by decide) x

theorem hasBlank_eq (h : Lengthens k c f f') : f'.hasBlank = f.hasBlank := by
  rw [Bool.eq_iff_iff, hasBlank, hasBlank, Bool.or_eq_true, Bool.or_eq_true, beq_iff_eq, beq_iff_eq,
    beq_iff_eq, beq_iff_eq]
  exact or_congr (h.half_eq_blank_iff .numerator) (h.half_eq_blank_iff .denominator)

theorem halfStop_eq (h : Lengthens k c f f') (hne : f.numerator ≠ []) {x : Half}
    (hstop : f.halfStop x = k) : f'.halfStop x = k + 1 := by
  have hpos := List.length_pos_iff.2 hne
  cases h with
  | before hk =>
      have hle := f.halfStop_le_stop x
      omega
  | behind hk =>
      cases x <;> simp only [halfStop, halfStart, half] at hstop <;> omega
  | @number f' l d r h hstart hf hf' hother hplain hk =>
      have hlength := congrArg List.length hf
      have hlength' := congrArg List.length hf'
      have hother := congrArg List.length hother
      cases x <;> cases h <;>
        simp only [halfStop, half, Half.other, halfStart, List.length_append,
          List.length_cons] at * <;> omega

end FractionSpan.Lengthens

/-! ### What is found -/

section search

variable {R : FractionSpan → FractionSpan → Prop} {l l' : List FractionSpan}

theorem rel_find? (h : List.Forall₂ R l l') {p q : FractionSpan → Bool}
    (hpq : ∀ f f', R f f' → q f' = p f) : Option.Rel R (l.find? p) (l'.find? q) := by
  induction h with
  | nil => exact .none
  | @cons f f' l l' hf hl ih =>
      rw [List.find?_cons, List.find?_cons, hpq f f' hf]
      cases p f with
      | true => exact .some hf
      | false => exact ih

theorem exists_mem_iff (h : List.Forall₂ R l l') {p q : FractionSpan → Bool}
    (hpq : ∀ f f', R f f' → q f' = p f) : (∃ f' ∈ l', q f' = true) ↔ ∃ f ∈ l, p f = true := by
  have hrel := rel_find? h hpq
  rw [← List.find?_isSome, ← List.find?_isSome]
  generalize l.find? p = o at hrel ⊢
  generalize l'.find? q = o' at hrel ⊢
  cases hrel with
  | none => rfl
  | some hf => exact iff_of_true rfl rfl

theorem rel_head? (h : List.Forall₂ R l l') : Option.Rel R l.head? l'.head? := by
  cases h with
  | nil => exact .none
  | cons hf hl => exact .some hf

theorem rel_or {a a' b b' : Option FractionSpan} (ha : Option.Rel R a a')
    (hb : Option.Rel R b b') : Option.Rel R (a.or b) (a'.or b') := by
  cases ha with
  | none => exact hb
  | some h => exact .some h

end search

section digits

variable (hd : isPlainNumeralChar d = true) (hc : isPlainNumeralChar c = true) (u v : Text)
include hd hc

/-- The fraction that is found at the place is the one that is found behind the new digit. -/
theorem rel_findFraction? :
    Option.Rel (Lengthens (u.length + 1) c)
      (findFraction? (u ++ d :: v) (some (u.length + 1 : Nat)))
      (findFraction? (u ++ d :: c :: v) (some (u.length + 1 + 1 : Nat))) := by
  have h := forall₂_fractions hd hc u v
  simp only [findFraction?, Option.orElse_eq_orElse, Option.orElse_eq_or, Option.bind_some]
  exact rel_or (rel_find? h fun f f' hf => hf.touches_eq)
    (rel_or (rel_find? h fun f f' hf => hf.hasBlank_eq) (rel_head? h))

theorem exists_hasBlank_iff :
    (∃ f ∈ fractions (u ++ d :: c :: v), f.hasBlank = true) ↔
      ∃ f ∈ fractions (u ++ d :: v), f.hasBlank = true :=
  exists_mem_iff (forall₂_fractions hd hc u v) fun _ _ hf => hf.hasBlank_eq

end digits

/-! ### Slots near the place -/

section patterns

variable {kind : SlotKind} {front back p : Text} (hc : isPlainNumeralChar c = true)
  (hfront : front.getLast? ≠ some '×') (hback : back.head? ≠ some '^')
include hc hfront hback

/-- A digit in a pattern stands behind a cross or in front of a power sign. -/
theorem not_covers_digit (hkind : kind ∈ SlotKind.inOrder) (hp : p ∈ kind.patterns) {l r : Text}
    (ht : front ++ c :: back = l ++ (p ++ r)) :
    ¬(l.length ≤ front.length ∧ front.length < l.length + p.length) := by
  have key : ∀ kind ∈ SlotKind.inOrder, ∀ p ∈ kind.patterns, ∀ i < p.length,
      (p.drop i).head?.any isPlainNumeralChar = true →
        (p.take i).getLast? = some '×' ∨ (p.drop (i + 1)).head? = some '^' := by
    decide
  rintro ⟨hle, hlt⟩
  obtain ⟨m, rfl⟩ : l <+: front :=
    List.prefix_of_prefix_length_le ⟨_, ht.symm⟩ (List.prefix_append front _) hle
  rw [List.length_append] at hlt
  rw [List.append_assoc] at ht
  have hrest := List.append_cancel_left ht
  obtain ⟨w, rfl⟩ : m <+: p :=
    List.prefix_of_prefix_length_le ⟨_, hrest⟩ (List.prefix_append p r) (by omega)
  rw [List.append_assoc] at hrest
  cases w with
  | nil => simp at hlt
  | cons e w =>
      obtain ⟨rfl, hw⟩ := List.cons.inj (List.append_cancel_left hrest)
      have hor := key kind hkind _ hp m.length (by simp) (by simpa using hc)
      rw [List.take_left, ← List.drop_drop, List.drop_left] at hor
      rcases hor with hlast | hhead
      · exact hfront (by rw [List.getLast?_append, hlast]; rfl)
      · rw [List.drop_succ_cons, List.drop_zero] at hhead
        exact hback (by rw [hw, List.append_eq, List.head?_append, hhead]; rfl)

theorem exists_pattern_of_near {s : Span} (h : .simple kind s ∈ slots (front ++ c :: back))
    (hstart : s.start ≤ front.length + 1) (hstop : front.length + 1 ≤ s.stop) :
    kind ∈ SlotKind.inOrder ∧ ∃ p ∈ kind.patterns, p <+: back := by
  obtain ⟨hkind, l, p, r, ht, hp, hl, hlp⟩ := exists_of_mem_slots h
  rw [List.append_assoc] at ht
  have hclear := not_covers_digit hc hfront hback hkind hp ht
  have hlength : (front ++ [c]).length = l.length := by
    rw [List.length_append, List.length_singleton]
    omega
  rw [List.append_cons] at ht
  exact ⟨hkind, p, hp, r, (List.append_inj ht hlength).2.symm⟩

end patterns

/-- No slot comes near to the place where a number grows. -/
theorem slotNear_of_lengthened (hd : isPlainNumeralChar d = true)
    (hc : isPlainNumeralChar c = true) {u v : Text} (hv : v.head? ≠ some '^')
    (h : slotNear (u ++ d :: c :: v) (u.length + 1 + 1 : Nat) = true) :
    slotNear (u ++ d :: v) (u.length + 1 : Nat) = true := by
  rw [slotNear_iff] at h ⊢
  obtain ⟨slot, hslot, hstart, hstop⟩ := h
  cases slot with
  | fraction f' =>
      obtain ⟨hf', hblank⟩ := fraction_mem_slots_iff.1 hslot
      have hnear := (exists_mem_iff (forall₂_fractions hd hc u v)
        (p := fun f => f.hasBlank && f.touches (u.length + 1 : Nat))
        (q := fun f => f.hasBlank && f.touches (u.length + 1 + 1 : Nat))
        fun f f' hf => by rw [hf.hasBlank_eq, hf.touches_eq]).1
      have htouches : f'.touches (u.length + 1 + 1 : Nat) = true := touches_iff.2 ⟨hstart, hstop⟩
      obtain ⟨f, hf, hft⟩ := hnear ⟨f', hf', by rw [hblank, htouches]; rfl⟩
      rw [Bool.and_eq_true] at hft
      exact ⟨_, fraction_mem_slots_iff.2 ⟨hf, hft.1⟩, touches_iff.1 hft.2⟩
  | simple kind s =>
      have hcross : (u ++ [d]).getLast? ≠ some '×' := by
        rw [List.getLast?_concat]
        rintro ⟨⟩
        exact absurd hd (by decide)
      have hlength : (u ++ [d]).length = u.length + 1 := by simp
      rw [List.append_cons] at hslot
      -- the pattern stands right behind the new digit, and so it did behind the old one
      obtain ⟨hkind, p, hp, back, rfl⟩ := exists_pattern_of_near hc hcross hv hslot
        (hlength ▸ hstart) (hlength ▸ hstop)
      have hslot' := simple_mem_slots hkind hp (u ++ [d]) back
      rw [← List.append_cons, hlength] at hslot'
      exact ⟨_, hslot', Nat.le_refl _, Nat.le_add_right _ _⟩

theorem slotNear_between_parentheses (hc : isPlainNumeralChar c = true) (front back : Text) :
    slotNear (front ++ '(' :: c :: ')' :: back) (front.length + 1 + 1 : Nat) = false := by
  rw [← Bool.not_eq_true, slotNear_iff]
  rintro ⟨slot, hslot, hstart, hstop⟩
  cases slot with
  | fraction f =>
      have hf := (fraction_mem_slots_iff.1 hslot).1
      have hopen := not_covers (by decide) (by decide) (by decide) (by decide) f hf
      have hclose := @not_covers ')' (front ++ ['(', c]) back (by decide) (by decide) (by decide)
        (by decide) f (by simpa using hf)
      have hlength := start_lt_halfStop hf .numerator
      simp only [Covers, Slot.span, halfStop, halfStart, half, stop, FractionSpan.length,
        List.length_append, List.length_cons, List.length_nil] at *
      omega
  | simple kind s =>
      have key : ∀ kind ∈ SlotKind.inOrder, ∀ p ∈ kind.patterns, p ≠ [] ∧ p.head? ≠ some ')' := by
        decide
      have hlength : (front ++ ['(']).length = front.length + 1 := by simp
      rw [List.append_cons] at hslot
      have hcross : (front ++ ['(']).getLast? ≠ some '×' := by simp
      obtain ⟨hkind, p, hp, hpre⟩ := exists_pattern_of_near hc hcross (by simp) hslot
        (hlength ▸ hstart) (hlength ▸ hstop)
      obtain ⟨hne, hhead⟩ := key kind hkind p hp
      cases p with
      | nil => exact hne rfl
      | cons e p =>
          obtain ⟨rfl, -⟩ := List.cons_prefix_cons.1 hpre
          exact hhead rfl

end PocketCalculator
