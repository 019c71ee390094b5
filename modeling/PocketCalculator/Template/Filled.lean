import PocketCalculator.Template.Fraction

/-! # Filled templates at the end of a text

A deletion empties the template that ends in front of the cursor.  This module recognises such a
template: the text is read backwards, so every function here takes the reversed text.  An operand is
the name of the last result or a number; a minus in front of a number belongs to it only when no
number and no parenthesis ends before. -/

namespace PocketCalculator.Filled

/-! ### Operands, read backwards -/

/-- Whether a minus behind this character subtracts. -/
def endsOperand (c : Char) : Bool :=
  isPlainNumeralChar c || c == ')'

/-- How many characters of the reversed text the last operand takes. -/
def operandLength? (r : Text) : Option Nat :=
  match Text.after? ansName.reverse r with
  | some _ => some ansName.length
  | none =>
    let run := r.takeWhile isPlainNumeralChar
    if run = [] then none
    else
      match r.dropWhile isPlainNumeralChar with
      | '-' :: before =>
        if before.head?.any endsOperand then some run.length else some (run.length + 1)
      | ')' :: _ => none
      | _ => some run.length

/-- How many characters the last operand and the symbol in front of it take. -/
def markedLength? (symbol r : Text) : Option Nat := do
  let n ← operandLength? r
  let _ ← Text.after? symbol.reverse (r.drop n)
  return n + symbol.length

/-- How many characters the last operand takes with the suffix behind it. -/
def suffixedLength? (s : Suffix) (r : Text) : Option Nat := do
  let r ← Text.after? s.text.reverse r
  return (← operandLength? r) + s.text.length

/-- How many characters of the reversed text the last half of a fraction takes. -/
def halfLength? (r : Text) : Option Nat :=
  match Text.after? [blankSymbol] r with
  | some _ => some 1
  | none =>
    match Text.after? ansName.reverse r with
    | some _ => some ansName.length
    | none =>
      match r.takeWhile isPlainNumeralChar with
      | [] => none
      | run => some run.length

/-- How many characters a fraction at the end takes, unless it is still empty. -/
def fractionLength? (r : Text) : Option Nat := do
  let n ← halfLength? r
  let before ← Text.after? ['/'] (r.drop n)
  let m ← halfLength? before
  if r.take (n + 1 + m) = Template.fraction.text.reverse then none
  return n + 1 + m

/-- The circular function whose parentheses end the text, with an argument that is not empty and has
no parentheses, and how many characters all of it takes. -/
def circular? (r : Text) : Option (CircularFunction × Nat) := do
  let inner ← Text.after? [')'] r
  let argument := inner.takeWhile fun c => c != '(' && c != ')'
  if argument = [] then none
  let before ← Text.after? ['('] (inner.drop argument.length)
  let f ← CircularFunction.all.find? fun f => before.startsWith f.text.reverse
  return (f, f.text.length + argument.length + 2)

/-! ### Templates -/

/-- The ways in which a template can end the text, in the order in which they are tried. -/
def candidates (r : Text) : List (Option (Template × Nat)) :=
  [(circular? r).map fun (f, n) => (.circular f, n),
   (markedLength? [rootSymbol] r).map (.root, ·),
   (suffixedLength? .square r).map (.square, ·),
   (suffixedLength? .cube r).map (.cube, ·),
   (suffixedLength? .reciprocal r).map (.reciprocal, ·),
   (suffixedLength? .factorial r).map (.factorial, ·),
   (markedLength? Marker.log.text r).map (.marker .log, ·),
   (markedLength? Marker.ln.text r).map (.marker .ln, ·),
   (markedLength? Marker.tenPower.text r).map (.marker .tenPower, ·),
   (markedLength? Marker.exp.text r).map (.marker .exp, ·),
   (fractionLength? r).map (.fraction, ·)]

/-- The filled template that ends the text, one line feed apart, and where it begins. -/
def before? (t : Text) : Option (Nat × Template) :=
  let inner := withoutFinalBreak t
  ((candidates inner.reverse).findSome? id).map fun (template, n) => (inner.length - n, template)

end PocketCalculator.Filled

namespace PocketCalculator

/-- Where an empty template that ends the text begins, one line feed apart. -/
def emptyTemplateBefore? (t : Text) : Option Nat :=
  Template.emptyBefore? (withoutFinalBreak t)

end PocketCalculator
