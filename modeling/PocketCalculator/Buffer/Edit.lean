import PocketCalculator.Buffer.Fill
import PocketCalculator.Template.Filled
import PocketCalculator.Text.Quoted
import PocketCalculator.Number.Decimal

/-! # Editing the buffer

Insertion, deletion, cursor movement and the change of sign.

An insertion fills an open slot next to the cursor if it can.  A template that starts with a blank
takes the value in front of the cursor for it.  A deletion takes away a display unit, except that a
filled template goes back to its empty form, and an empty one goes as a whole. -/

namespace PocketCalculator.Buffer

/-! ### Insertion -/

/-- Whether a text is one of the binary operators of the keyboard. -/
def isOperatorText (t : Text) : Bool :=
  t ∈ [['+'], ['-'], ['×'], ['÷']]

/-- Whether the value in front of the cursor fills the blank with which a template starts. -/
def adoptsOperand (b : Buffer) (t : Text) : Bool :=
  (Template.ofText? t).isSome && t.startsWith [blankSymbol] && b.text ≠ clearedText &&
    endsWithValue b.before

/-- Whether a text takes the place of the zero of a cleared buffer. -/
def replacesZero (t : Text) : Bool :=
  t.head?.any isDecimalDigit || t = ['.'] || t = ansName || (Template.ofText? t).isSome

/-- The buffer with a text at the cursor, open slots left aside. -/
def insertPlain (b : Buffer) (t : Text) : Buffer :=
  let b := if isOperatorText t then b.withFraction .idle else b
  let adopts := b.adoptsOperand t
  let inserted := if adopts then t.drop 1 else t
  let b' :=
    if b.text = clearedText && replacesZero inserted then b.replace inserted inserted.length
    else b.splice b.cursor b.cursor inserted
  if t = Template.fraction.text then
    b'.withFraction (.editing (if adopts then .denominator else .numerator))
  else b'

/-- The buffer with a text put in at the cursor, or into an open slot. -/
def insert (b : Buffer) (t : Text) : Buffer :=
  if t = [] then b
  else
    match if isFillValue t && slotNear b.text b.cursor then b.fill? t else none with
    | some filled => filled
    | none => b.insertPlain t

/-! ### Deletion -/

/-- What closes the slot in front of it: a suffix with a template, or the bar of a fraction. -/
def slotClosers : List Text :=
  [Suffix.square.text, Suffix.cube.text, Suffix.reciprocal.text, Suffix.factorial.text, ['/']]

/-- The symbol that closes a slot at the beginning of a text. -/
def closer? (t : Text) : Option Text :=
  slotClosers.find? t.startsWith

/-- How many characters go with an empty slot: the symbol that closes it, and with the bar of a
fraction the blank behind it. -/
def closerLength (closer behind : Text) : Nat :=
  if closer = ['/'] && Text.startsWith (behind.drop closer.length) [blankSymbol] then
    closer.length + 1
  else closer.length

/-- The buffer without the display unit in front of the cursor.  When the unit was the operand of
what follows, a blank takes its place, and when it was a blank, what follows goes as well. -/
def deleteUnit (b : Buffer) : Buffer :=
  let unit := (units b.before).getLastD []
  let remaining := b.before.take (b.before.length - unit.length)
  match closer? b.after with
  | some closer =>
    if unit = [blankSymbol] then
      b.replace (remaining ++ b.after.drop (closerLength closer b.after)) remaining.length
    else if endsWithValue remaining then b.replace (remaining ++ b.after) remaining.length
    else b.replace (remaining ++ blankSymbol :: b.after) (remaining.length + 1 : Nat)
  | none => b.replace (remaining ++ b.after) remaining.length

/-- The buffer after a deletion at the cursor. -/
def delete (b : Buffer) : Buffer :=
  if b.before = [] then b
  else
    match Filled.before? b.before with
    | some (start, template) =>
      let b' := b.splice start b.cursor template.text
      if template = .fraction then b'.withFraction (.editing .numerator) else b'
    | none =>
      match emptyTemplateBefore? b.before with
      | some start => b.splice start b.cursor []
      | none => b.deleteUnit

/-! ### Movement -/

/-- The directions of the cursor. -/
inductive Direction where
  | left
  | right
  | up
  | down
  deriving DecidableEq, Repr

/-- The name of a direction. -/
def Direction.name : Direction → Text
  | left => "left".toList
  | right => "right".toList
  | up => "up".toList
  | down => "down".toList

/-- The direction of a name. -/
def Direction.ofName? (name : Text) : Option Direction :=
  [left, right, up, down].find? (·.name = name)

/-- What is said about a name that is no direction. -/
def unknownDirection (name : Text) : String :=
  "Unknown direction: " ++ String.ofList name

/-- The cursor in the other half of the fraction being edited, or in a half of the fraction found.
-/
def moveHalf (b : Buffer) (first : Half) : Buffer :=
  match findFraction? b.text (some b.cursor) with
  | none => b
  | some f =>
    let e := if b.fraction.active then b.fraction.toggle else FractionEdit.editing first
    { b with cursor := f.halfStop e.focus, fraction := e }

/-- The cursor moved: by one display unit, or to a half of a fraction. -/
def move (b : Buffer) : Direction → Buffer
  | .left => { b with cursor := boundaryBefore b.text b.cursor }
  | .right => { b with cursor := boundaryAfter b.text b.cursor }
  | .up => b.moveHalf .numerator
  | .down => b.moveHalf .denominator

/-! ### Sign -/

/-- The number at the cursor with its sign added, or taken away when it has one. -/
def toggleSign (b : Buffer) : Buffer :=
  let left := (b.before.reverse.takeWhile isNumeralChar).length
  let right := (b.after.takeWhile isNumeralChar).length
  if left + right = 0 then b
  else
    let start := b.cursor - left
    let front := b.text.take start
    if front.getLast? = some '-' && !endsWithValue front.dropLast then
      b.replace (front.dropLast ++ b.text.drop start) ((b.cursor : Int) - 1)
    else b.replace (front ++ '-' :: b.text.drop start) ((b.cursor : Int) + 1)

/-! ### Recorded form -/

/-- The recorded form of a truth value. -/
def flagText (b : Bool) : Text :=
  if b then "True".toList else "False".toList

/-- The number of a half, as it is recorded. -/
def halfNumber : Half → Nat
  | .numerator => 0
  | .denominator => 1

/-- The recorded form of a buffer. -/
def record (b : Buffer) : Text :=
  "ExpressionBuffer(".toList ++ Quoted.quoted b.text ++ ", cursor=".toList ++
    Decimal.digits b.cursor ++ ", FractionEditState(active=".toList ++
    flagText b.fraction.active ++ ", focus=".toList ++
    Decimal.digits (halfNumber b.fraction.focus) ++ "))".toList

end PocketCalculator.Buffer
