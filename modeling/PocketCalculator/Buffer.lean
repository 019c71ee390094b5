import PocketCalculator.Unit
import PocketCalculator.Template.Slot

/-! # The expression buffer

The expression being edited, the cursor in it, and whether one of its fractions is being edited. The
text is never empty: what would be empty is the cleared text, a single zero.  `Buffer.replace` is
the one way in which a text enters; it puts the cursor back onto a boundary, and ends the editing of
a fraction when the text has none left. -/

namespace PocketCalculator

/-! ### The state of the buffer -/

/-- Whether a fraction is being edited, and which half has the focus. -/
structure FractionEdit where
  active : Bool
  focus : Half
  deriving DecidableEq, Repr

namespace FractionEdit

/-- No fraction is being edited. -/
def idle : FractionEdit :=
  ⟨false, .numerator⟩

/-- A fraction is being edited in the given half. -/
def editing (focus : Half) : FractionEdit :=
  ⟨true, focus⟩

/-- The focus on the other half. -/
def toggle (e : FractionEdit) : FractionEdit :=
  { e with focus := e.focus.other }

end FractionEdit

/-- The text of a cleared buffer. -/
def clearedText : Text := ['0']

/-- The expression being edited. -/
structure Buffer where
  text : Text
  cursor : Nat
  fraction : FractionEdit
  deriving DecidableEq, Repr

namespace Buffer

/-- A cleared buffer. -/
def cleared : Buffer :=
  ⟨clearedText, clearedText.length, .idle⟩

/-- The text in front of the cursor. -/
def before (b : Buffer) : Text :=
  b.text.take b.cursor

/-- The text behind the cursor. -/
def after (b : Buffer) : Text :=
  b.text.drop b.cursor

/-- The buffer with another text and the cursor at a position of it. -/
def replace (b : Buffer) (text : Text) (cursor : Int) : Buffer :=
  if text = [] then cleared
  else
    { text
      cursor := snap text cursor
      fraction := if b.fraction.active && (fractions text).isEmpty then .idle else b.fraction }

/-- The buffer with another state of fraction editing. -/
def withFraction (b : Buffer) (e : FractionEdit) : Buffer :=
  { b with fraction := e }

/-- The buffer with the characters from `start` up to `stop` replaced, and the cursor behind what
has been put in. -/
def splice (b : Buffer) (start stop : Nat) (text : Text) : Buffer :=
  b.replace (b.text.take start ++ text ++ b.text.drop stop) (start + text.length : Nat)

/-! ### Values in front of the cursor -/

/-- Whether a value ends with this character. -/
def endsValue (c : Char) : Bool :=
  isAsciiDigit c || c ∈ ['.', ')', blankSymbol, '²', '³', '!', '%']

/-- Whether a text ends with a value, so that a minus behind it subtracts. -/
def endsWithValue (t : Text) : Bool :=
  t.getLast?.any endsValue || t.endsWith inverseMark || t.endsWith ansName

end Buffer
end PocketCalculator
