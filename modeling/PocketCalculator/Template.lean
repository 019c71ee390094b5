import PocketCalculator.Symbol

/-! # Templates

A template is what a function key inserts: a symbol with a blank for each operand, or a circular
function with empty parentheses. -/

namespace PocketCalculator

/-- The templates. -/
inductive Template where
  | fraction
  | root
  | square
  | cube
  | reciprocal
  | factorial
  | marker (m : Marker)
  | circular (f : CircularFunction)
  deriving DecidableEq, Repr

namespace Template

/-- The text that a template inserts. -/
def text : Template → Text
  | fraction => [blankSymbol, '/', blankSymbol]
  | root => [rootSymbol, blankSymbol]
  | square => blankSymbol :: Suffix.square.text
  | cube => blankSymbol :: Suffix.cube.text
  | reciprocal => blankSymbol :: Suffix.reciprocal.text
  | factorial => blankSymbol :: Suffix.factorial.text
  | marker m => m.text ++ [blankSymbol]
  | circular f => f.text ++ ['(', ')']

/-- Every template. -/
def all : List Template :=
  [fraction, root, square, cube, reciprocal, factorial, marker .log, marker .ln,
    marker .tenPower, marker .exp] ++ CircularFunction.all.map circular

/-- The template that a text is. -/
def ofText? (t : Text) : Option Template :=
  all.find? (·.text = t)

/-- Where a template that is still empty and ends the text begins.  Of several, the longest. -/
def emptyBefore? (t : Text) : Option Nat :=
  (((all.map text).filter t.endsWith).map List.length).max?.map (t.length - ·)

end Template

/-- The text without one line feed at its end. -/
def withoutFinalBreak (t : Text) : Text :=
  if t.getLast? = some '\n' then t.dropLast else t

end PocketCalculator
