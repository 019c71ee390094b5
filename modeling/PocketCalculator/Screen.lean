import PocketCalculator.Buffer.Edit

/-! # The screen

What a front end needs to know to draw the calculator, and the two lines that are drawn: a row of
indicators, and the expression with its cursor beside the last result. -/

namespace PocketCalculator

/-- A picture of the calculator.  The cursor may be any number; one that lies outside of the text is
drawn as `Text.place` says. -/
structure Screen where
  text : Text
  cursor : Int
  fractionActive : Bool
  focus : Half
  shift : Bool
  result : Text
  valid : Bool
  format : Text
  memoryInUse : Bool
  deriving DecidableEq, Repr

namespace Screen

/-- The expression with a text drawn at the cursor. -/
def withCursor (s : Screen) (cursor : Text) : Text :=
  let i := Text.place s.text.length s.cursor
  s.text.take i ++ cursor ++ s.text.drop i

/-- The indicator of the fraction being edited. -/
def fractionIndicator (s : Screen) : Text :=
  if s.fractionActive then
    match s.focus with
    | .numerator => "NUM".toList
    | .denominator => "DEN".toList
  else "   ".toList

/-- The row of indicators: memory, SHIFT, fraction, angles and format. -/
def statusLine (s : Screen) : Text :=
  (if s.memoryInUse then ['M'] else [' ']) ++ ' ' ::
    (if s.shift then "SHIFT".toList else "     ".toList) ++ ' ' ::
    s.fractionIndicator ++ " DEG ".toList ++ s.format

/-- How many columns the expression takes at least. -/
def expressionWidth : Nat := 20

/-- Both lines. -/
def render (s : Screen) : Text :=
  s.statusLine ++ '\n' :: Text.padRight expressionWidth (s.withCursor ['|']) ++
    if s.result = [] then [] else '=' :: ' ' :: s.result

end Screen
end PocketCalculator
