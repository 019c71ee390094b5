import PocketCalculator.Json.Token

/-! # From JSON tokens to a value

The grammar of JSON as a machine that takes one token at a time.  Its state says what may come
next; the lists and objects that are still open are kept on a stack of frames, the innermost first.
A text is read when the machine ends with a complete value.  A number that is too long stops the
machine where a value may stand; anywhere else it is as wrong as any other value. -/

namespace PocketCalculator.Json

/-- A list or an object that is still open, with what it holds so far, the last first. -/
inductive Frame where
  | list (done : List Json)
  | object (done : Members) (key : String)

/-- What the machine waits for. -/
inductive State where
  /-- A value. -/
  | value (stack : List Frame)
  /-- The first item of a list, or its end. -/
  | firstItem (stack : List Frame)
  /-- A comma behind an item, or the end of the list. -/
  | afterItem (done : List Json) (stack : List Frame)
  /-- The first key of an object, or its end. -/
  | firstKey (stack : List Frame)
  /-- A further key. -/
  | nextKey (done : Members) (stack : List Frame)
  /-- The colon behind a key. -/
  | colon (done : Members) (key : String) (stack : List Frame)
  /-- A comma behind a member, or the end of the object. -/
  | afterMember (done : Members) (stack : List Frame)
  /-- Nothing more. -/
  | complete (v : Json)
  /-- Nothing more, because of a number that is too long. -/
  | stopped

/-- The state behind a complete value. -/
def afterValue (v : Json) : List Frame → State
  | [] => .complete v
  | .list done :: stack => .afterItem (v :: done) stack
  | .object done key :: stack => .afterMember ((key, v) :: done) stack

/-- The state behind the first token of a value. -/
def startValue (stack : List Frame) : Token → Option State
  | .scalar v => some (afterValue v stack)
  | .text s => some (afterValue (.text s) stack)
  | .openList => some (.firstItem stack)
  | .openObject => some (.firstKey stack)
  | .overlong => some .stopped
  | _ => none

/-- One token. -/
def step : State → Token → Option State
  | .value stack, t => startValue stack t
  | .firstItem stack, .closeList => some (afterValue (.list []) stack)
  | .firstItem stack, t => startValue (.list [] :: stack) t
  | .afterItem done stack, .comma => some (.value (.list done :: stack))
  | .afterItem done stack, .closeList => some (afterValue (.list done.reverse) stack)
  | .firstKey stack, .closeObject => some (afterValue (.object []) stack)
  | .firstKey stack, .text key => some (.colon [] key stack)
  | .nextKey done stack, .text key => some (.colon done key stack)
  | .colon done key stack, .colon => some (.value (.object done key :: stack))
  | .afterMember done stack, .comma => some (.nextKey done stack)
  | .afterMember done stack, .closeObject =>
    some (afterValue (.object (overlay [] done.reverse)) stack)
  | _, _ => none

/-- Why a text gives no value. -/
inductive ReadFault where
  /-- The text is no JSON. -/
  | malformed
  /-- A whole number has too many digits. -/
  | overlongNumber
  deriving DecidableEq, Repr

/-- The value that a list of tokens writes. -/
def ofTokens (ts : List Token) : Except ReadFault Json :=
  match ts.foldlM step (.value []) with
  | some (.complete v) => .ok v
  | some .stopped => .error .overlongNumber
  | _ => .error .malformed

/-- The value that a text writes; nothing else may stand in the text. -/
def read (t : Text) : Except ReadFault Json :=
  match tokens? t with
  | some ts => ofTokens ts
  | none => .error .malformed

end PocketCalculator.Json
