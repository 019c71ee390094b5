import PocketCalculator.Text

/-! # Symbols

The symbols of an expression other than numbers: operators on two levels, markers in front of an
operand, suffixes behind one, and the circular functions, which are followed by a parenthesis.  Each
has one spelling.

Some symbols are spelled with several characters, and these *heads* are never taken apart: neither
by the tokens nor by the cursor.  `Head.read?_eq_some` says that a head is read off exactly where
its spelling stands. -/

namespace PocketCalculator

/-! ### Operators -/

/-- The operators of a sum. -/
inductive Additive where
  | plus
  | minus
  deriving DecidableEq, Repr

/-- The operators of a term.  Multiplication and division have two spellings each. -/
inductive Multiplicative where
  | times
  | divide
  | star
  | slash
  deriving DecidableEq, Repr

/-- The spelling of an operator of a sum. -/
def Additive.symbol : Additive → Char
  | .plus => '+'
  | .minus => '-'

/-- The spelling of an operator of a term. -/
def Multiplicative.symbol : Multiplicative → Char
  | .times => '×'
  | .divide => '÷'
  | .star => '*'
  | .slash => '/'

/-- Whether an operator of a term divides. -/
def Multiplicative.divides : Multiplicative → Bool
  | .divide | .slash => true
  | .times | .star => false

/-! ### Functions -/

/-- What stands in front of its operand without parentheses, the root apart. -/
inductive Marker where
  | log
  | ln
  | tenPower
  | exp
  deriving DecidableEq, Repr

/-- What stands behind its operand. -/
inductive Suffix where
  | square
  | cube
  | reciprocal
  | factorial
  | percent
  deriving DecidableEq, Repr

/-- The three circular functions. -/
inductive Circular where
  | sin
  | cos
  | tan
  deriving DecidableEq, Repr

/-- A circular function or its inverse. -/
structure CircularFunction where
  base : Circular
  inverse : Bool
  deriving DecidableEq, Repr

/-- The sign of the root. -/
def rootSymbol : Char := '√'

/-- The place of an operand that is still to come. -/
def blankSymbol : Char := '□'

/-- The mark of an inverse, also of a reciprocal. -/
def inverseMark : Text := ['⁻', '¹']

/-- The name of the last result. -/
def ansName : Text := ['a', 'n', 's']

/-- The spelling of a marker. -/
def Marker.text : Marker → Text
  | .log => ['l', 'o', 'g']
  | .ln => ['l', 'n']
  | .tenPower => ['×', '1', '0', '^']
  | .exp => ['e', '^']

/-- The spelling of a suffix. -/
def Suffix.text : Suffix → Text
  | .square => ['²']
  | .cube => ['³']
  | .reciprocal => inverseMark
  | .factorial => ['!']
  | .percent => ['%']

/-- The name of a circular function. -/
def Circular.text : Circular → Text
  | .sin => ['s', 'i', 'n']
  | .cos => ['c', 'o', 's']
  | .tan => ['t', 'a', 'n']

/-- The name of a circular function or its inverse. -/
def CircularFunction.text (f : CircularFunction) : Text :=
  f.base.text ++ if f.inverse then inverseMark else []

/-- The three circular functions, in order. -/
def Circular.all : List Circular := [.sin, .cos, .tan]

/-- The circular functions and their inverses, the inverses first. -/
def CircularFunction.all : List CircularFunction :=
  Circular.all.map (⟨·, true⟩) ++ Circular.all.map (⟨·, false⟩)

/-- The circular function of a name. -/
def Circular.ofText? (t : Text) : Option Circular :=
  Circular.all.find? (·.text = t)

/-! ### Heads -/

/-- A symbol of several characters.  A circular function takes its parenthesis along. -/
inductive Head where
  | circular (f : CircularFunction)
  | marker (m : Marker)
  | ans
  | reciprocal
  deriving DecidableEq, Repr

namespace Head

/-- The spelling of a head. -/
def text : Head → Text
  | circular f => f.text ++ ['(']
  | marker m => m.text
  | ans => ansName
  | reciprocal => inverseMark

/-- Every head.  None of the spellings begins another one. -/
def all : List Head :=
  CircularFunction.all.map circular ++
    [marker .tenPower, marker .log, marker .ln, marker .exp, ans, reciprocal]

/-- Every head with its spelling. -/
def spellings : List (Head × Text) :=
  all.map fun h => (h, h.text)

/-- The head at the beginning of a text, and what follows it. -/
def read? (t : Text) : Option (Head × Text) :=
  spellings.findSome? fun s => (Text.after? s.2 t).map (s.1, ·)

theorem read?_eq_some {t : Text} {h : Head} {rest : Text} (e : read? t = some (h, rest)) :
    t = h.text ++ rest := by
  obtain ⟨s, hs, hr⟩ := List.exists_of_findSome?_eq_some e
  obtain ⟨g, -, rfl⟩ := List.mem_map.1 hs
  obtain ⟨r, hr, he⟩ := Option.map_eq_some_iff.1 hr
  cases he
  exact Text.after?_eq_some_iff.1 hr

theorem text_ne_nil (h : Head) : h.text ≠ [] := by
  cases h with
  | circular f => simp [text]
  | marker m => cases m <;> simp [text, Marker.text]
  | ans => simp [text, ansName]
  | reciprocal => simp [text, inverseMark]

theorem length_of_read? {t : Text} {h : Head} {rest : Text} (e : read? t = some (h, rest)) :
    rest.length < t.length := by
  rw [read?_eq_some e, List.length_append]
  have := List.length_pos_iff.2 (text_ne_nil h)
  omega

end Head
end PocketCalculator
