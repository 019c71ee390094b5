import PocketCalculator.Expr.Parser
import PocketCalculator.Token.Product
import PocketCalculator.Template.Slot

/-! # Evaluation

An expression is refused as long as it is incomplete: an open slot is left, the parentheses do not
balance in number, or a side of a fraction is empty.  A complete one is read and computed; a lone
number and the name of the last result are answered directly.  Every fault of `evaluate` carries the
whole expression. -/

namespace PocketCalculator

/-! ### Completeness -/

/-- Whether the text in front of a slash, given backwards, is no numerator. -/
def lacksNumerator (before : Text) : Bool :=
  match before.dropWhile isBlank with
  | [] => true
  | c :: _ => c == '(' || (Token.ofChar? c).any Token.isOperator

/-- Whether the text behind a slash is no denominator; a sign may start one. -/
def lacksDenominator (behind : Text) : Bool :=
  match behind.dropWhile isBlank with
  | [] => true
  | c :: _ => c == ')' || (c != '-' && (Token.ofChar? c).any Token.isOperator)

/-- Whether a slash lacks one of its sides, in a text with `before` in front of it, backwards. -/
def emptyHalfBehind (before : Text) : Text → Bool
  | [] => false
  | c :: rest =>
    (c == '/' && (lacksNumerator before || lacksDenominator rest)) ||
      emptyHalfBehind (c :: before) rest

/-- Why an expression may not be evaluated yet. -/
def incompleteness? (t : Text) : Option Fault :=
  if hasBlank t then some .blankLeft
  else if t.count '(' ≠ t.count ')' then some .unbalanced
  else if emptyHalfBehind [] t then some .emptyFractionHalf
  else none

/-- Refuses an incomplete expression. -/
def checkComplete (t : Text) : Except Failure Unit :=
  match incompleteness? t with
  | some fault => .error ⟨fault, some t⟩
  | none => .ok ()

/-! ### Values -/

/-- A fault without its expression. -/
def withoutEquation {α : Type} (r : Except Fault α) : Except Failure α :=
  r.mapError fun fault => ⟨fault, none⟩

/-- The value of a complete expression without blanks around it. -/
def valueOf (ans : Option Float) (t : Text) : Except Fault Float :=
  if isNumeral t then readNumber t
  else if t = ansName then
    match ans with
    | some x => .ok x
    | none => .error .ansUnset
  else do
    let tokens ← (Token.ofExpression t).mapError Failure.fault
    let e ← Expr.ofTokens ans tokens
    e.value

/-- The value of an expression, given the last result. -/
def evaluate (ans : Option Float) (t : Text) : Except Failure Float :=
  match incompleteness? t with
  | some fault => .error ⟨fault, some t⟩
  | none => (valueOf ans t.strip).mapError fun fault => ⟨fault, some t⟩

/-- The expression with every operand reduced to its value, so that only operators are left. -/
def reduceOperands (ans : Option Float) (t : Text) : Except Failure Text := do
  checkComplete t
  let tokens ← Token.ofExpression t
  withoutEquation do
    let e ← Expr.ofTokens ans tokens
    e.flatText

end PocketCalculator
