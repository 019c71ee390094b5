import PocketCalculator.Text.Quoted
import PocketCalculator.Number.Written
import PocketCalculator.Symbol

/-! # Faults

What can go wrong with an expression, by cause.  Each cause has a kind and a code of four digits:
the first digit gives the category, and the message is the text of the code followed by what the
cause names.  `Failure` adds the expression that the fault was found in. -/

namespace PocketCalculator

/-! ### Codes -/

/-- The text that belongs to each code. -/
def codeTexts : List (String × String) :=
  [("2000", "Function was recognized, but couldnt be assigned in processing."),
   ("2001", "Missing operand for function: "),
   ("2002", "Negative number under the root."),
   ("2003", "Logarithm of a non-positive number."),
   ("2004", "Inverse sine/cosine outside of [-1, 1]."),
   ("2005", "Factorial of a negative or non-integer number."),
   ("2006", "Reciprocal of zero."),
   ("3003", "Division by Zero"),
   ("3008", "More than one '.' in one number."),
   ("3009", "Missing ')'. "),
   ("3010", "Missing '('. "),
   ("3011", "Unexpected Token: "),
   ("3012", "Invalid expression: "),
   ("3026", "Number too big."),
   ("3027", "Missing Number."),
   ("3028", "Only a single operand is allowed inside parentheses."),
   ("3031", "Ans was used before anything was calculated."),
   ("3032", "Unfilled placeholder in expression."),
   ("3033", "Unbalanced parentheses."),
   ("3034", "Empty side of a fraction."),
   ("4001", "Unknown key: "),
   ("4501", "Not all Settings could be saved: "),
   ("9999", "Unexpected Error: ")]

/-- The text of an unknown code. -/
def unknownCodeText : String := "Unexpected Error: "

/-- The code of a fault that carries none. -/
def defaultCode : String := "9999"

/-- The text of a code. -/
def describe (code : String) : String :=
  (codeTexts.lookup code).getD unknownCodeText

/-- The category that the first digit of a code stands for. -/
def categoryOf (code : String) : Option String :=
  match code.toList.head? with
  | some '2' => some "Scientific Calculation Error"
  | some '3' => some "Calculator Error"
  | some '4' => some "Input Error"
  | some '5' => some "Configuration Error"
  | some '9' => some "Runtime Error"
  | _ => none

/-- How a fault is reported: its code in brackets, then its message. -/
def reportText (code message : String) : String :=
  "[" ++ code ++ "] " ++ message

/-! ### Causes -/

/-- The kinds of faults. -/
inductive FaultKind where
  | invalidExpression
  | malformedOperand
  | divisionByZero
  | outsideDomain
  | ansUnavailable
  | incompleteInput
  | unknownInput
  deriving DecidableEq, Repr

/-- The causes of faults. -/
inductive Fault where
  /-- A name that is no function. -/
  | unknownFunction (name : Text)
  /-- Parentheses without an operand, behind a function or on their own. -/
  | emptyGroup (name : Option Text)
  | negativeRoot
  | logarithmOfNonPositive
  | inverseOutOfRange
  | factorialOfNonNatural
  | reciprocalOfZero
  | divisionByZero
  | severalPoints
  /-- The tokens do not go on with the parenthesis that closes a group. -/
  | missingClosing
  /-- A function without the parenthesis that opens its group. -/
  | missingOpening (name : Text)
  | unexpectedToken (token : Text)
  /-- Tokens behind a complete expression. -/
  | leftover (tokens : Text)
  /-- A circular function of an infinite angle. -/
  | infiniteAngle (name : Text) (angle : Float)
  | tooBig
  | missingNumber
  /-- A token that looks like a number and is none. -/
  | unreadableNumber (token : Text)
  /-- An operator where a group has to close. -/
  | severalOperands
  | ansUnset
  | blankLeft
  | unbalanced
  | emptyFractionHalf
  | unknownKey (name : Text)

namespace Fault

/-- The code of a fault. -/
def code : Fault → String
  | unknownFunction _ => "2000"
  | emptyGroup _ => "2001"
  | negativeRoot => "2002"
  | logarithmOfNonPositive => "2003"
  | inverseOutOfRange => "2004"
  | factorialOfNonNatural => "2005"
  | reciprocalOfZero => "2006"
  | divisionByZero => "3003"
  | severalPoints => "3008"
  | missingClosing => "3009"
  | missingOpening _ => "3010"
  | unexpectedToken _ => "3011"
  | leftover _ => "3012"
  | infiniteAngle _ _ => "3012"
  | tooBig => "3026"
  | missingNumber => "3027"
  | unreadableNumber _ => "3027"
  | severalOperands => "3028"
  | ansUnset => "3031"
  | blankLeft => "3032"
  | unbalanced => "3033"
  | emptyFractionHalf => "3034"
  | unknownKey _ => "4001"

/-- The kind of a fault. -/
def kind : Fault → FaultKind
  | unknownFunction _ | missingClosing | unexpectedToken _ | leftover _ | infiniteAngle _ _
  | tooBig => .invalidExpression
  | emptyGroup _ | severalPoints | missingOpening _ | missingNumber | unreadableNumber _
  | severalOperands => .malformedOperand
  | reciprocalOfZero | divisionByZero => .divisionByZero
  | negativeRoot | logarithmOfNonPositive | inverseOutOfRange | factorialOfNonNatural =>
    .outsideDomain
  | ansUnset => .ansUnavailable
  | blankLeft | unbalanced | emptyFractionHalf => .incompleteInput
  | unknownKey _ => .unknownInput

/-- What a fault adds to the text of its code. -/
def detail : Fault → Text
  | unknownFunction name | missingOpening name | unknownKey name => name
  | emptyGroup name => name.getD ['(', ')']
  | unexpectedToken token => token
  | leftover tokens => tokens
  | unreadableNumber token => [' ', '('] ++ Quoted.quoted token ++ [')']
  | _ => []

/-- The message of a fault.  That of an infinite angle names the function and the angle only. -/
def message : Fault → String
  | infiniteAngle name angle =>
    String.ofList (name ++ [' ', 'o', 'f', ' '] ++ recordText angle)
  | f => describe f.code ++ String.ofList f.detail

/-- Whether the input was refused before it was evaluated. -/
def isRefusal (f : Fault) : Bool :=
  f.kind == .incompleteInput

end Fault

/-- A fault, with the expression that it was found in where this is known. -/
structure Failure where
  fault : Fault
  equation : Option Text

end PocketCalculator
