import PocketCalculator.Token.Lexer

/-! # Implied products

Two neighbouring tokens mean a product when the first one ends an operand and the second one starts
another.  `Token.withProducts` writes the sign of multiplication between them. -/

namespace PocketCalculator.Token

/-- Whether two neighbours mean a product.  Two numbers do not, since no expression writes them side
by side. -/
def impliesProduct (left right : Token) : Bool :=
  match left with
  | number _ => right.opensOperand || right == ans
  | ans => right.opensOperand || right.isValue
  | _ => left.closesOperand && (right.isValue || right.opensOperand)

/-- The tokens with every implied product written out. -/
def withProducts : List Token → List Token
  | [] => []
  | [s] => [s]
  | s :: t :: rest =>
    if impliesProduct s t then s :: multiplicative .times :: withProducts (t :: rest)
    else s :: withProducts (t :: rest)

/-- The tokens of an expression with every product written out. -/
def ofExpression (t : Text) : Except Failure (List Token) :=
  (scan t).map withProducts

end PocketCalculator.Token
