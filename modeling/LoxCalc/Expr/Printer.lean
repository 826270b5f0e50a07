import LoxCalc.Expr.Basic

/-!
# LoxCalc.Expr.Printer

The two written forms of a tree.

* `Expr.debugText` is fully parenthesised, with operators first; and
* `Expr.sourceText` is source text again. It writes parentheses for groupings only,
  which is enough for trees that are shaped by precedence and association.
-/

namespace LoxCalc

namespace Expr

/-- The parenthesised form, operators first: `(* (- 123) (group 45.67))`. -/
def debugText : Expr → String
  | literal v => v.text
  | grouping e => "(group " ++ e.debugText ++ ")"
  | unary op e => "(" ++ op.lexeme ++ " " ++ e.debugText ++ ")"
  | binary l op r => "(" ++ op.lexeme ++ " " ++ l.debugText ++ " " ++ r.debugText ++ ")"

/-- The digits of `10 ^ 309`, more than any finite number: they read as infinity. -/
def infinityDigits : String := .ofList ('1' :: List.replicate 309 '0')

/-- The source text of a literal: strings in quotes, infinity as a number too long
to be finite, and everything else as displayed. -/
def literalText : Value → String
  | .string s => "\"" ++ s ++ "\""
  | .number (.signed negative m) =>
    if m.isInfinite then
      (if negative then "-" else "") ++ infinityDigits
    else
      (Double.signed negative m).text
  | v => v.text

/-- The source text of a tree. -/
def sourceText : Expr → String
  | literal v => literalText v
  | grouping e => "(" ++ e.sourceText ++ ")"
  | unary op e => op.lexeme ++ e.sourceText
  | binary l op r => l.sourceText ++ " " ++ op.lexeme ++ " " ++ r.sourceText

end Expr

end LoxCalc
