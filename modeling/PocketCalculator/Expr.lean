import PocketCalculator.Function
import PocketCalculator.Token

/-! # Expressions

The tree of an expression, its value, its flat text and its recorded form.  The value is found from
the leaves up, the left side first.  The flat text keeps the operators and shows every operand by
its value. -/

namespace PocketCalculator

/-! ### Trees -/

/-- The operators on both levels. -/
inductive Operator where
  | additive (op : Additive)
  | multiplicative (op : Multiplicative)
  deriving DecidableEq, Repr

/-- The spelling of an operator. -/
def Operator.symbol : Operator → Char
  | additive op => op.symbol
  | multiplicative op => op.symbol

/-- The operator of a spelling. -/
def Operator.ofText? (t : Text) : Option Operator :=
  [additive .plus, additive .minus, multiplicative .times, multiplicative .divide,
    multiplicative .star, multiplicative .slash].find? fun op => [op.symbol] = t

/-- The operator that a token is. -/
def Token.operator? : Token → Option Operator
  | additive op => some (.additive op)
  | multiplicative op => some (.multiplicative op)
  | _ => none

/-- An expression. -/
inductive Expr where
  | blank
  | literal (value : Float)
  | neg (operand : Expr)
  | apply (f : Function) (operand : Expr)
  | binary (op : Operator) (left right : Expr)
  /-- Two operands joined by a symbol that is no operator. -/
  | foreign (symbol : Text) (left right : Expr)
  /-- A quotient that is the whole expression. -/
  | fraction (numerator denominator : Expr)
  deriving DecidableEq, Inhabited

/-! ### Operations -/

/-- The quotient of two doubles; zero divides nothing. -/
def divide (x y : Float) : Except Fault Float :=
  if y == 0 then .error .divisionByZero else .ok (x / y)

/-- An operator applied to two doubles. -/
def Operator.apply : Operator → Float → Float → Except Fault Float
  | .additive .plus, x, y => .ok (x + y)
  | .additive .minus, x, y => .ok (x - y)
  | .multiplicative op, x, y => if op.divides then divide x y else .ok (x * y)

namespace Expr

/-- Whether an expression is two operands joined by a symbol. -/
def isBinary : Expr → Bool
  | binary .. | foreign .. => true
  | _ => false

/-! ### Values -/

/-- The value of an expression. -/
def value : Expr → Except Fault Float
  | blank => .error .blankLeft
  | literal x => .ok x
  | neg e => do return -(← value e)
  | apply f e => do f.apply (← value e)
  | binary op l r => do
    let x ← value l
    let y ← value r
    op.apply x y
  | foreign symbol l r => do
    let _ ← value l
    let _ ← value r
    .error (.unexpectedToken symbol)
  | fraction n d => do
    let x ← value n
    let y ← value d
    divide x y

/-! ### Texts -/

/-- The flat text of an expression: every operand by its value, joined as in the tree. -/
def flatText : Expr → Except Fault Text
  | binary op l r => do
    let x ← flatText l
    let y ← flatText r
    return x ++ op.symbol :: y
  | foreign symbol l r => do
    let x ← flatText l
    let y ← flatText r
    return x ++ symbol ++ y
  | fraction n d => do
    let x ← flatText n
    let y ← flatText d
    return x ++ '/' :: y
  | e => do return plainText (← value e)

/-- The recorded form of a tree. -/
def record : Expr → Text
  | blank => "Blank()".toList
  | literal x => "Literal(".toList ++ recordText x ++ [')']
  | neg e => "UnaryFn('-', ".toList ++ record e ++ [')']
  | apply f e => "UnaryFn(".toList ++ Quoted.quoted f.text ++ ", ".toList ++ record e ++ [')']
  | binary op l r => joined [op.symbol] (record l) (record r)
  | foreign symbol l r => joined symbol (record l) (record r)
  | fraction n d => "Fraction(".toList ++ record n ++ ", ".toList ++ record d ++ [')']
where
  /-- The recorded form of two operands joined by a symbol. -/
  joined (symbol left right : Text) : Text :=
    "BinaryOp(".toList ++ Quoted.quoted symbol ++ ", left=".toList ++ left ++
      ", right=".toList ++ right ++ [')']

end Expr
end PocketCalculator
