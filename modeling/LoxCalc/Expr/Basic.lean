import LoxCalc.Token.Basic

/-!
# LoxCalc.Expr.Basic

Expression trees. Operators are kept as whole tokens, since errors of evaluation
point at them.
-/

namespace LoxCalc

/-- An expression tree. Trees built by hand may hold any token as an operator. -/
inductive Expr where
  /-- A value written down. -/
  | literal (value : Value)
  /-- An expression in parentheses. -/
  | grouping (inner : Expr)
  /-- An operator before its operand. -/
  | unary (operator : Token) (operand : Expr)
  /-- An operator between its operands. -/
  | binary (left : Expr) (operator : Token) (right : Expr)
deriving DecidableEq

namespace Expr

/-- Equality of trees, where numbers are compared as the language does: NaN differs
from itself. Operators are compared in every field, their lines too. -/
def equals : Expr → Expr → Bool
  | literal v, literal w => v.equals w
  | grouping e, grouping f => e.equals f
  | unary op e, unary op' f => op.equals op' && e.equals f
  | binary l op r, binary l' op' r' => l.equals l' && op.equals op' && r.equals r'
  | _, _ => false

end Expr

end LoxCalc
