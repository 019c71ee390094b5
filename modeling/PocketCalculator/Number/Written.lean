import PocketCalculator.Number.Shortest

/-! # Written numbers

The text of a double in the notation in which values are recorded, and the plain text in which a
value is put back into an expression.  Both show the shortest decimal of the double. -/

namespace PocketCalculator

/-- How recorded values are laid out: between the two exponents the text is positional and shows
at least one place, elsewhere it is scientific. -/
structure RecordLayout where
  positionalFrom : Int
  positionalBelow : Int
  notANumber : Text
  infinity : Text

/-- Recorded values are positional from `0.0001` up to below `10 ^ 16`. -/
def RecordLayout.standard : RecordLayout :=
  ⟨-4, 16, "nan".toList, "inf".toList⟩

namespace RecordLayout

/-- The text of a finite number. -/
def decimal (layout : RecordLayout) (d : Decimal) : Text :=
  if layout.positionalFrom ≤ d.leadingExponent ∧ d.leadingExponent < layout.positionalBelow then
    let text := d.positional
    if text.contains '.' then text else text ++ ['.', '0']
  else d.scientific

/-- The text of any double. -/
def text (layout : RecordLayout) (x : Float) : Text :=
  match Dyadic.ofFloat? x with
  | some d => layout.decimal d.shortest
  | none =>
    if x.isNaN then layout.notANumber
    else Decimal.signText (signBit x) ++ layout.infinity

end RecordLayout

/-- The recorded text of a double: the shortest digits that read back. -/
def recordText (x : Float) : Text :=
  RecordLayout.standard.text x

/-- The plain text of a double: every digit in its place, no exponent, no zero at the end behind a
point, and no sign on zero. -/
def plainText (x : Float) : Text :=
  match Dyadic.ofFloat? x with
  | some d => if d.mantissa = 0 then ['0'] else d.shortest.positional
  | none => recordText x

end PocketCalculator
