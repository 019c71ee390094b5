import PocketCalculator.Template.Fraction

/-! # Open slots

A slot is open where an operand is still to come.  The kinds of slots have a fixed order, the order
in which they are filled, and within a kind they come from the left.  A lone blank is the last kind,
so every blank belongs to some slot.  A text is complete only without open slots. -/

namespace PocketCalculator

/-! ### Kinds -/

/-- The kinds of open slots. -/
inductive SlotKind where
  | fraction
  | root
  | square
  | log
  | tenPower
  | circular
  | inverse
  | ln
  | exp
  | cube
  | reciprocal
  | factorial
  | lone
  deriving DecidableEq, Repr

namespace SlotKind

/-- The empty circular functions, or their inverses. -/
def emptyCircular (inverse : Bool) : List Text :=
  Circular.all.map fun c => (Template.circular ⟨c, inverse⟩).text

/-- The texts that mark an open slot of a kind; those of a fraction are found by its own rule. -/
def patterns : SlotKind → List Text
  | fraction => []
  | root => [Template.root.text]
  | square => [Template.square.text]
  | log => [(Template.marker .log).text]
  | tenPower => [(Template.marker .tenPower).text]
  | circular => emptyCircular false
  | inverse => emptyCircular true
  | ln => [(Template.marker .ln).text]
  | exp => [(Template.marker .exp).text]
  | cube => [Template.cube.text]
  | reciprocal => [Template.reciprocal.text]
  | factorial => [Template.factorial.text]
  | lone => [[blankSymbol]]

/-- The kinds in the order in which their slots are filled. -/
def inOrder : List SlotKind :=
  [fraction, root, square, log, tenPower, circular, inverse, ln, exp, cube, reciprocal, factorial,
    lone]

/-- The name of a kind. -/
def name : SlotKind → String
  | fraction => "fraction"
  | root => "root"
  | square => "square"
  | log => "log"
  | tenPower => "sci"
  | circular => "trig"
  | inverse => "inverse"
  | ln => "ln"
  | exp => "exp"
  | cube => "cube"
  | reciprocal => "reciprocal"
  | factorial => "factorial"
  | lone => "blank"

end SlotKind

/-! ### Slots -/

/-- A stretch of a text. -/
structure Span where
  start : Nat
  stop : Nat
  deriving DecidableEq, Repr

/-- Whether a position touches or lies inside a stretch. -/
def Span.touches (s : Span) (position : Int) : Bool :=
  s.start ≤ position && position ≤ s.stop

/-- Where one of the patterns stands in a text that begins at `start`, from the left and without
overlap, when its first `skip` characters belong to the stretch before. -/
def occurrencesFrom (patterns : List Text) : (start skip : Nat) → Text → List Span
  | _, _, [] => []
  | start, skip + 1, _ :: rest => occurrencesFrom patterns (start + 1) skip rest
  | start, 0, c :: rest =>
    match patterns.find? (Text.startsWith (c :: rest)) with
    | some p =>
      ⟨start, start + p.length⟩ :: occurrencesFrom patterns (start + 1) (p.length - 1) rest
    | none => occurrencesFrom patterns (start + 1) 0 rest

/-- Where one of the patterns stands in a text. -/
def occurrences (patterns : List Text) (t : Text) : List Span :=
  occurrencesFrom patterns 0 0 t

/-- An open slot: a fraction with a blank, or another template. -/
inductive Slot where
  | fraction (f : FractionSpan)
  | simple (kind : SlotKind) (span : Span)
  deriving DecidableEq, Repr

namespace Slot

/-- The kind of a slot. -/
def kind : Slot → SlotKind
  | fraction _ => .fraction
  | simple kind _ => kind

/-- The stretch of a slot. -/
def span : Slot → Span
  | fraction f => ⟨f.start, f.stop⟩
  | simple _ s => s

end Slot

/-- The open slots of one kind. -/
def slotsOfKind (t : Text) : SlotKind → List Slot
  | .fraction => ((fractions t).filter (·.hasBlank)).map .fraction
  | kind => (occurrences kind.patterns t).map (.simple kind)

/-- The open slots of a text, in the order in which they are filled. -/
def slots (t : Text) : List Slot :=
  SlotKind.inOrder.flatMap (slotsOfKind t)

/-- Whether an open slot touches a position. -/
def slotNear (t : Text) (position : Int) : Bool :=
  (slots t).any (·.span.touches position)

/-- Whether a text has a blank or an empty circular function. -/
def hasBlank (t : Text) : Bool :=
  t.contains blankSymbol ||
    occurrences (SlotKind.emptyCircular false ++ SlotKind.emptyCircular true) t ≠ []

end PocketCalculator
