import PocketCalculator.Template
import PocketCalculator.Text.DecimalDigit

/-! # Fractions in a text

A fraction is a slash between two halves, each of which is a blank, the name of the last result or a
run of digits and points.  Fractions are found from the left and do not overlap.

Where a run begins no fraction, none begins inside of it either, so the search steps over the run.
`fractionsFrom_of_none` says that this finds what a search at every place would find. -/

namespace PocketCalculator

/-! ### Halves -/

/-- The half of a fraction at the beginning of a text, and what follows it. -/
def readHalf? (t : Text) : Option (Text × Text) :=
  match Text.after? [blankSymbol] t with
  | some rest => some ([blankSymbol], rest)
  | none =>
    match Text.after? ansName t with
    | some rest => some (ansName, rest)
    | none =>
      match t.takeWhile isPlainNumeralChar with
      | [] => none
      | run => some (run, t.dropWhile isPlainNumeralChar)

/-- The numerator and the denominator of the fraction at the beginning of a text. -/
def readFraction? (t : Text) : Option (Text × Text) := do
  let (numerator, rest) ← readHalf? t
  let rest ← Text.after? ['/'] rest
  let (denominator, _) ← readHalf? rest
  return (numerator, denominator)

/-! ### Fractions -/

/-- One of the halves of a fraction. -/
inductive Half where
  | numerator
  | denominator
  deriving DecidableEq, Repr

/-- The half on the other side of the slash. -/
def Half.other : Half → Half
  | .numerator => .denominator
  | .denominator => .numerator

/-- A fraction and where it begins. -/
structure FractionSpan where
  start : Nat
  numerator : Text
  denominator : Text
  deriving DecidableEq, Repr

namespace FractionSpan

/-- How many characters a fraction has. -/
def length (f : FractionSpan) : Nat :=
  f.numerator.length + 1 + f.denominator.length

/-- Where a fraction ends. -/
def stop (f : FractionSpan) : Nat :=
  f.start + f.length

/-- The text of a half. -/
def half (f : FractionSpan) : Half → Text
  | .numerator => f.numerator
  | .denominator => f.denominator

/-- Where a half begins. -/
def halfStart (f : FractionSpan) : Half → Nat
  | .numerator => f.start
  | .denominator => f.start + f.numerator.length + 1

/-- Where a half ends. -/
def halfStop (f : FractionSpan) (h : Half) : Nat :=
  f.halfStart h + (f.half h).length

/-- Whether a half is blank. -/
def hasBlank (f : FractionSpan) : Bool :=
  f.numerator == [blankSymbol] || f.denominator == [blankSymbol]

/-- Whether a position touches or lies inside a fraction. -/
def touches (f : FractionSpan) (position : Int) : Bool :=
  f.start ≤ position && position ≤ f.stop

end FractionSpan

/-- How many characters behind the first one begin no fraction, when the first one begins none:
those of the same run. -/
def runBehind (t : Text) : Nat :=
  (t.takeWhile isPlainNumeralChar).length - 1

/-- The fractions of a text that begins at `start`, when its first `skip` characters are stepped
over. -/
def fractionsFrom : (start skip : Nat) → Text → List FractionSpan
  | _, _, [] => []
  | start, skip + 1, _ :: rest => fractionsFrom (start + 1) skip rest
  | start, 0, c :: rest =>
    match readFraction? (c :: rest) with
    | some (numerator, denominator) =>
      let f : FractionSpan := ⟨start, numerator, denominator⟩
      f :: fractionsFrom (start + 1) (f.length - 1) rest
    | none => fractionsFrom (start + 1) (runBehind (c :: rest)) rest

theorem readHalf?_of_numeral {c : Char} (h : isPlainNumeralChar c = true) (rest : Text) :
    readHalf? (c :: rest) =
      some (c :: rest.takeWhile isPlainNumeralChar, rest.dropWhile isPlainNumeralChar) := by
  have hb : blankSymbol ≠ c := fun e => by rw [← e] at h; exact absurd h (by decide)
  have ha : 'a' ≠ c := fun e => by rw [← e] at h; exact absurd h (by decide)
  simp [readHalf?, Text.after?, ansName, hb, ha, h]

theorem readFraction?_eq_none_of_cons {c d : Char} {rest : Text}
    (hc : isPlainNumeralChar c = true) (hd : isPlainNumeralChar d = true)
    (h : readFraction? (c :: d :: rest) = none) : readFraction? (d :: rest) = none := by
  unfold readFraction? at h ⊢
  rw [readHalf?_of_numeral hc] at h
  rw [readHalf?_of_numeral hd]
  simp only [List.dropWhile_cons, hd, if_true, Option.bind_eq_bind, Option.bind_some] at h ⊢
  cases he : Text.after? ['/'] (rest.dropWhile isPlainNumeralChar) with
  | none => rfl
  | some r =>
    rw [he] at h
    cases hr : readHalf? r with
    | none => simp [hr]
    | some q => simp [hr] at h

theorem fractionsFrom_skip {t : Text} {skip : Nat}
    (hs : skip ≤ (t.takeWhile isPlainNumeralChar).length)
    (h : skip ≠ 0 → readFraction? t = none) (start : Nat) :
    fractionsFrom start skip t = fractionsFrom start 0 t := by
  induction t generalizing skip start with
  | nil => simp [fractionsFrom]
  | cons d rest ih =>
    cases skip with
    | zero => rfl
    | succ k =>
      have hn := h (Nat.succ_ne_zero k)
      have hd : isPlainNumeralChar d = true := by
        cases hd : isPlainNumeralChar d with
        | true => rfl
        | false => simp [hd] at hs
      have step {j : Nat} (hj : j ≤ (rest.takeWhile isPlainNumeralChar).length) :
          fractionsFrom (start + 1) j rest = fractionsFrom (start + 1) 0 rest := by
        refine ih hj (fun h0 => ?_) (start + 1)
        cases rest with
        | nil => rfl
        | cons e rest =>
          have he : isPlainNumeralChar e = true := by
            cases he : isPlainNumeralChar e with
            | true => rfl
            | false => simp [he] at hj; exact absurd hj h0
          exact readFraction?_eq_none_of_cons hd he hn
      have hk : k ≤ (rest.takeWhile isPlainNumeralChar).length := by
        simpa [hd] using hs
      rw [fractionsFrom, step hk, fractionsFrom, hn]
      exact (step (by simp [runBehind, hd])).symm

theorem fractionsFrom_of_none {c : Char} {rest : Text} (h : readFraction? (c :: rest) = none)
    (start : Nat) : fractionsFrom start 0 (c :: rest) = fractionsFrom (start + 1) 0 rest := by
  cases hc : isPlainNumeralChar c with
  | false => simp [fractionsFrom, h, runBehind, hc]
  | true =>
    exact (@fractionsFrom_skip (c :: rest) 1 (by simp [hc]) (fun _ => h) start).symm

/-- The fractions of a text, from the left. -/
def fractions (t : Text) : List FractionSpan :=
  fractionsFrom 0 0 t

/-- The fraction to edit: the one at the position, otherwise the first with a blank, otherwise the
first one. -/
def findFraction? (t : Text) (position : Option Int) : Option FractionSpan :=
  let all := fractions t
  (position.bind fun p => all.find? (·.touches p)) <|>
    all.find? (·.hasBlank) <|> all.head?

end PocketCalculator
