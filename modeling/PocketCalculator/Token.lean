import PocketCalculator.Symbol
import PocketCalculator.Fault
import PocketCalculator.Number.Reading

/-! # Tokens

A token is a number as it was written, a symbol, or any other text.  `Token.text` gives the
spelling and `Token.ofText` classifies a spelling. -/

namespace PocketCalculator

/-! ### Numerals -/

/-- A number as it was written: a run of digits and points, and a sign that belongs to it. -/
structure Numeral where
  negative : Bool
  body : Text
  body_ne_nil : body ≠ []
  body_all : body.all isNumeralChar = true
  deriving DecidableEq

namespace Numeral

/-- The spelling of a numeral. -/
def text (n : Numeral) : Text :=
  if n.negative then '-' :: n.body else n.body

/-- The numeral without sign of a run of digits and points. -/
def ofRun? (negative : Bool) (run : Text) : Option Numeral :=
  if h : run ≠ [] ∧ run.all isNumeralChar = true then some ⟨negative, run, h.1, h.2⟩ else none

/-- Reads a spelling back. -/
def ofText? : Text → Option Numeral
  | '-' :: run => ofRun? true run
  | run => ofRun? false run

theorem text_of_ofRun? {negative : Bool} {run : Text} {n : Numeral}
    (h : ofRun? negative run = some n) : n.negative = negative ∧ n.body = run := by
  unfold ofRun? at h
  split at h
  · cases h; exact ⟨rfl, rfl⟩
  · cases h

theorem text_of_ofText? {t : Text} {n : Numeral} (h : ofText? t = some n) : n.text = t := by
  unfold ofText? at h
  split at h
  · obtain ⟨h₁, h₂⟩ := text_of_ofRun? h
    simp [text, h₁, h₂]
  · obtain ⟨h₁, h₂⟩ := text_of_ofRun? h
    simp [text, h₁, h₂]

end Numeral

/-- Whether a text is a numeral. -/
def isNumeral (t : Text) : Bool :=
  (Numeral.ofText? t).isSome

/-- The value of a written number.  More than one point is a fault of its own. -/
def readNumber (t : Text) : Except Fault Float :=
  if 1 < t.count '.' then .error .severalPoints
  else
    match Reading.float? t with
    | some x => .ok x
    | none => .error (.unreadableNumber t)

/-- The value of a numeral. -/
def Numeral.value (n : Numeral) : Except Fault Float :=
  readNumber n.text

/-! ### Tokens -/

/-- The tokens of an expression. -/
inductive Token where
  | number (n : Numeral)
  | ans
  | blank
  | additive (op : Additive)
  | multiplicative (op : Multiplicative)
  | root
  | marker (m : Marker)
  | suffix (s : Suffix)
  | circular (f : CircularFunction)
  | opening
  | closing
  /-- A text that is no token of an expression. -/
  | other (t : Text)
  deriving DecidableEq

namespace Token

/-- The spelling of a token. -/
def text : Token → Text
  | number n => n.text
  | ans => ansName
  | blank => [blankSymbol]
  | additive op => [op.symbol]
  | multiplicative op => [op.symbol]
  | root => [rootSymbol]
  | marker m => m.text
  | suffix s => s.text
  | circular f => f.text
  | opening => ['(']
  | closing => [')']
  | other t => t

/-- The tokens of one character. -/
def characters : List Token :=
  [additive .plus, additive .minus, multiplicative .times, multiplicative .divide,
   multiplicative .star, multiplicative .slash, opening, closing, blank, root,
   suffix .square, suffix .cube, suffix .factorial, suffix .percent]

/-- The tokens with a fixed spelling. -/
def symbols : List Token :=
  characters ++ [ans, marker .log, marker .ln, marker .tenPower, marker .exp, suffix .reciprocal] ++
    CircularFunction.all.map circular

/-- The token of one character. -/
def ofChar? (c : Char) : Option Token :=
  characters.find? fun s => s.text = [c]

/-- The token that a text spells. -/
def ofText (t : Text) : Token :=
  match Numeral.ofText? t with
  | some n => number n
  | none => (symbols.find? fun s => s.text = t).getD (other t)

theorem text_of_ofChar? {c : Char} {s : Token} (h : ofChar? c = some s) : s.text = [c] := by
  simpa using List.find?_some h

/-- Whether a token is a number or stands for one. -/
def isValue : Token → Bool
  | number _ | ans => true
  | _ => false

/-- Whether a token may come before an operand as a part of it: the root, a marker, a circular
function or an opening parenthesis. -/
def opensOperand : Token → Bool
  | root | marker _ | circular _ | opening => true
  | _ => false

/-- Whether an operand ends with this token, other than a value. -/
def closesOperand : Token → Bool
  | closing | suffix _ => true
  | _ => false

/-- Whether a token is an operator. -/
def isOperator : Token → Bool
  | additive _ | multiplicative _ => true
  | _ => false

/-- The tokens after which a minus in front of a digit is a sign. -/
def precedesSign : Token → Bool
  | additive _ | multiplicative _ | opening | root | marker _ => true
  | _ => false

/-- The spelling of a list of tokens. -/
def join (tokens : List Token) : Text :=
  tokens.flatMap text

end Token
end PocketCalculator
