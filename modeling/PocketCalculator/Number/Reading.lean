import PocketCalculator.Number.Decimal
import PocketCalculator.Text.DecimalDigit

/-! # Reading numbers

The grammar of a written number: blanks around it, a sign, digits with at most one point, and an
exponent; or one of the words for infinity and for what is not a number, in any case.  Digits of
every script count by their value, and a single underscore may stand between two digits.  The
double read is the one nearest to the decimal. -/

namespace PocketCalculator.Reading

/-! ### Characters -/

/-- A character as the grammar sees it: digits of every script become those of the first block, and
other blanks than the usual six become the space. -/
def plain (c : Char) : Char :=
  if c.toNat < 0x7F then c
  else if isBlank c then ' '
  else
    match digitValue? c with
    | some v => Char.ofNat ('0'.toNat + v)
    | none => c

/-- A text without the blanks around it, in plain characters. -/
def trimmed (t : Text) : Text :=
  let inner := (t.map plain).dropWhile isAsciiBlank
  (inner.reverse.dropWhile isAsciiBlank).reverse

/-- The text without its underscores, provided that each stands between two digits. -/
def withoutUnderscores : (afterDigit : Bool) → Text → Option Text
  | _, [] => some []
  | afterDigit, '_' :: rest =>
    match rest with
    | d :: _ => if afterDigit && isAsciiDigit d then withoutUnderscores false rest else none
    | [] => none
  | _, c :: rest => (withoutUnderscores (isAsciiDigit c) rest).map (c :: ·)

/-- The sign in front of a number, and what follows it. -/
def splitSign : Text → Bool × Text
  | '-' :: rest => (true, rest)
  | '+' :: rest => (false, rest)
  | t => (false, t)

/-- The value of a run of digits of the first block. -/
def digitsValue (t : Text) : Nat :=
  Nat.ofDigitChars 10 t 0

/-! ### Numbers -/

/-- The exponent part of a number, which must reach to the end; it may be missing. -/
def exponent? : Text → Option Int
  | [] => some 0
  | e :: rest =>
    if e = 'e' || e = 'E' then
      let (negative, run) := splitSign rest
      if run ≠ [] ∧ run.all isAsciiDigit then
        some (if negative then -(digitsValue run : Int) else digitsValue run)
      else none
    else none

/-- The decimal that a text without sign and blanks writes. -/
def unsigned? (t : Text) : Option (Nat × Int) :=
  let whole := t.takeWhile isAsciiDigit
  let rest := t.dropWhile isAsciiDigit
  let (fraction, tail) :=
    match rest with
    | '.' :: behind => (behind.takeWhile isAsciiDigit, behind.dropWhile isAsciiDigit)
    | _ => ([], rest)
  if whole = [] ∧ fraction = [] then none
  else (exponent? tail).map fun e => (digitsValue (whole ++ fraction), e - fraction.length)

/-- The double that a text writes. -/
def float? (t : Text) : Option Float := do
  let (negative, body) := splitSign (← withoutUnderscores false (trimmed t))
  let word := body.map Char.toLower
  if word = "inf".toList ∨ word = "infinity".toList then return infinite negative
  if word = "nan".toList then return notANumber
  let (coefficient, exponent) ← unsigned? body
  return Decimal.toFloat ⟨negative, coefficient, exponent⟩

/-- How many digits a whole number may be written with, leading zeros counted. -/
def greatestWholeLength : Nat := 4300

/-- The whole number that a text writes: a sign and digits, nothing else. -/
def int? (t : Text) : Option Int := do
  let (negative, body) := splitSign (← withoutUnderscores false (trimmed t))
  if body ≠ [] ∧ body.all isAsciiDigit ∧ body.length ≤ greatestWholeLength then
    return if negative then -(digitsValue body : Int) else digitsValue body
  none

end PocketCalculator.Reading
