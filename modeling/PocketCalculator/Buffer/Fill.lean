import PocketCalculator.Buffer

/-! # Filling open slots

A typed value fills the first open slot of the buffer.  In a fraction it fills the half that has the
focus, or lengthens the number that is there already; a sign is never a half, and the name of the
last result is never joined to a number. -/

namespace PocketCalculator

/-! ### Values that fill a slot -/

/-- The texts that may fill a slot: a digit, the point, a sign, and the name of the last result. -/
def isFillValue (t : Text) : Bool :=
  t == ansName || match t with
    | [c] => isAsciiDigit c || c == '.' || c == '-'
    | _ => false

namespace Buffer

/-! ### Filling -/

/-- The half of a fraction that a value goes to: the one with the focus while the fraction is being
edited, otherwise the first blank one. -/
def halfToFill (b : Buffer) (f : FractionSpan) : Half :=
  if b.fraction.active then b.fraction.focus
  else if f.numerator = [blankSymbol] then .numerator
  else .denominator

/-- Fills or lengthens a half of a fraction. -/
def fillFraction? (b : Buffer) (f : FractionSpan) (t : Text) : Option Buffer :=
  let h := b.halfToFill f
  let b := if b.fraction.active then b else b.withFraction (.editing h)
  if f.half h = [blankSymbol] then some (b.splice (f.halfStart h) (f.halfStop h) t)
  else if t = ansName ∨ f.half h = ansName then none
  else some (b.splice (f.halfStop h) (f.halfStop h) t)

/-- Fills a slot of another kind: the blank in it, or the place between its parentheses. -/
def fillSimple (b : Buffer) (s : Span) (t : Text) : Buffer :=
  let body := (b.text.take s.stop).drop s.start
  if body.contains blankSymbol then
    let position := s.start + body.idxOf blankSymbol
    b.splice position (position + 1) t
  else b.splice (s.stop - 1) (s.stop - 1) t

/-- The first open slot that a value can go to; a sign passes over fractions. -/
def slotToFill? (b : Buffer) (t : Text) : Option Slot :=
  (slots b.text).find? fun s => !(t == ['-'] && s.kind == .fraction)

/-- The buffer with a value in its first open slot, if the value can fill one.  While a fraction is
being edited, the fraction at the cursor comes before the first one. -/
def fill? (b : Buffer) (t : Text) : Option Buffer :=
  if isFillValue t then
    match b.slotToFill? t with
    | none => none
    | some (.simple _ s) => some (b.fillSimple s t)
    | some (.fraction f) =>
      let f := if b.fraction.active then (findFraction? b.text (some b.cursor)).getD f else f
      b.fillFraction? f t
  else none

end Buffer
end PocketCalculator
