import PocketCalculator.Buffer.Edit

/-! # Keys

The keys of the calculator and their names.  `Key.insertion?` says what a key types; a function key
types another template while SHIFT is on. -/

namespace PocketCalculator

/-- The keys that insert a template. -/
inductive FunctionKey where
  | sin
  | cos
  | tan
  | log
  | ln
  | square
  | root
  | reciprocal
  | exponent
  | fraction
  deriving DecidableEq, Repr

/-- The keys. -/
inductive Key where
  | digit (d : Fin 10)
  | point
  | plus
  | minus
  | times
  | divide
  | opening
  | closing
  | percent
  | function (f : FunctionKey)
  | move (d : Buffer.Direction)
  | ans
  | sign
  | shift
  | delete
  | allClear
  | equals
  | format
  | memoryAdd
  | memorySubtract
  | memoryRecall
  | memoryClear
  deriving DecidableEq, Repr

/-- The template of a function key, without and with SHIFT. -/
def FunctionKey.template : FunctionKey → (shift : Bool) → Template
  | sin, shift => .circular ⟨.sin, shift⟩
  | cos, shift => .circular ⟨.cos, shift⟩
  | tan, shift => .circular ⟨.tan, shift⟩
  | log, shift => .marker (if shift then .tenPower else .log)
  | ln, shift => .marker (if shift then .exp else .ln)
  | square, shift => if shift then .root else .square
  | root, shift => if shift then .cube else .root
  | reciprocal, shift => if shift then .factorial else .reciprocal
  | exponent, _ => .marker .tenPower
  | fraction, _ => .fraction

namespace Key

/-- The character of a digit. -/
def digitChar (d : Fin 10) : Char :=
  Nat.digitChar d

/-- What a key types at the cursor, if it types anything. -/
def insertion? (shift : Bool) : Key → Option Text
  | digit d => some [digitChar d]
  | point => some ['.']
  | plus => some ['+']
  | minus => some ['-']
  | times => some ['×']
  | divide => some ['÷']
  | opening => some ['(']
  | closing => some [')']
  | percent => some ['%']
  | function f => some (f.template shift).text
  | ans => some ansName
  | _ => none

/-- The names of the function keys. -/
def functionNames : List (String × FunctionKey) :=
  [("sin", .sin), ("cos", .cos), ("tan", .tan), ("log", .log), ("ln", .ln), ("square", .square),
   ("root", .root), ("reciprocal", .reciprocal), ("EXP", .exponent), ("fraction", .fraction)]

/-- The names of the other keys, the digits apart.  Multiplication and division have two each. -/
def otherNames : List (String × Key) :=
  [(".", point), ("+", plus), ("-", minus), ("×", times), ("÷", divide), ("*", times),
   ("/", divide), ("(", opening), (")", closing), ("%", percent), ("left", move .left),
   ("right", move .right), ("up", move .up), ("down", move .down), ("SHIFT", shift),
   ("DEL", delete), ("AC", allClear), ("=", equals), ("FMT", format), ("+/-", sign), ("ans", ans),
   ("M+", memoryAdd), ("M-", memorySubtract), ("MR", memoryRecall), ("MC", memoryClear)]

/-- The names of all keys. -/
def names : List (String × Key) :=
  (List.finRange 10).map (fun d => (String.singleton (digitChar d), digit d)) ++
    functionNames.map (fun n => (n.1, function n.2)) ++ otherNames

/-- The key of a name. -/
def ofName? (name : Text) : Option Key :=
  names.lookup (String.ofList name)

end Key
end PocketCalculator
