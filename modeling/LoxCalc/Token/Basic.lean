import LoxCalc.Token.Kind
import LoxCalc.Value

/-!
# LoxCalc.Token.Basic

Tokens: what the source is cut into for the grammar, and what errors point at.
-/

namespace LoxCalc

/-- A token. Scanning gives a literal to numbers and strings only, and every other
token the spelling of its kind; tokens from elsewhere need not agree. -/
structure Token where
  /-- What the token is for the grammar. -/
  kind : Kind
  /-- Its text in the source. -/
  lexeme : String
  /-- The value of a number or string. -/
  literal : Option Value
  /-- The line on which its text ends. -/
  line : Nat
deriving DecidableEq

namespace Token

/-- The token at the end of an input, on its last line. -/
def endOfInput (line : Nat) : Token := ⟨.eof, "", none, line⟩

/-- Where an error at this token is said to be. -/
def location (t : Token) : String :=
  if t.kind = .eof then " at end" else " at '" ++ t.lexeme ++ "'"

/-- The displayed form: kind, lexeme and the literal if there is one. -/
def text (t : Token) : String :=
  t.kind.name ++ " " ++ t.lexeme ++
    match t.literal with
    | some v => " " ++ v.text
    | none => ""

/-- Equality in every field, literals by the language's equality of values. -/
def equals (t u : Token) : Bool :=
  t.kind == u.kind && t.lexeme == u.lexeme && t.line == u.line &&
    match t.literal, u.literal with
    | some v, some w => v.equals w
    | none, none => true
    | _, _ => false

end Token

end LoxCalc
