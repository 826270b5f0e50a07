/-!
# LoxCalc.Token.Kind

The kinds of tokens, with the spelling of those that have only one.

The grammar of expressions uses the operators, parentheses, literals and the three
keywords `true`, `false` and `nil`; the other kinds belong to statements, which
only matter here as places where reading can resume after an error.
-/

namespace LoxCalc

/-- The kind of a token. -/
inductive Kind where
  | leftParen
  | rightParen
  | leftBrace
  | rightBrace
  | comma
  | dot
  | minus
  | plus
  | semicolon
  | slash
  | star
  | bang
  | bangEqual
  | equal
  | equalEqual
  | greater
  | greaterEqual
  | less
  | lessEqual
  /-- A word that is no keyword. -/
  | identifier
  /-- A text in quotes. -/
  | string
  /-- A decimal number. -/
  | number
  | kwAnd
  | kwClass
  | kwElse
  | kwFalse
  | kwFor
  | kwFun
  | kwIf
  | kwNil
  | kwOr
  | kwPrint
  | kwReturn
  | kwSuper
  | kwThis
  | kwTrue
  | kwVar
  | kwWhile
  /-- The end of the input. -/
  | eof
deriving DecidableEq

namespace Kind

/-- Every kind. -/
def all : List Kind :=
  [leftParen, rightParen, leftBrace, rightBrace, comma, dot, minus, plus, semicolon, slash, star,
    bang, bangEqual, equal, equalEqual, greater, greaterEqual, less, lessEqual,
    identifier, string, number,
    kwAnd, kwClass, kwElse, kwFalse, kwFor, kwFun, kwIf, kwNil, kwOr, kwPrint, kwReturn, kwSuper,
    kwThis, kwTrue, kwVar, kwWhile, eof]

theorem mem_all (k : Kind) : k ∈ all := by
  cases k <;> decide

/-! ### Spelling -/

/-- The only text a token of this kind can have in a source, if there is one. -/
def spelling? : Kind → Option String
  | leftParen => some "("
  | rightParen => some ")"
  | leftBrace => some "\x7b"
  | rightBrace => some "\x7d"
  | comma => some ","
  | dot => some "."
  | minus => some "-"
  | plus => some "+"
  | semicolon => some ";"
  | slash => some "/"
  | star => some "*"
  | bang => some "!"
  | bangEqual => some "!="
  | equal => some "="
  | equalEqual => some "=="
  | greater => some ">"
  | greaterEqual => some ">="
  | less => some "<"
  | lessEqual => some "<="
  | identifier => none
  | string => none
  | number => none
  | kwAnd => some "and"
  | kwClass => some "class"
  | kwElse => some "else"
  | kwFalse => some "false"
  | kwFor => some "for"
  | kwFun => some "fun"
  | kwIf => some "if"
  | kwNil => some "nil"
  | kwOr => some "or"
  | kwPrint => some "print"
  | kwReturn => some "return"
  | kwSuper => some "super"
  | kwThis => some "this"
  | kwTrue => some "true"
  | kwVar => some "var"
  | kwWhile => some "while"
  | eof => some ""

/-- The spelling, or no text at all for a kind that has many. -/
def spelling (k : Kind) : String := k.spelling?.getD ""

/-- The kinds spelled as words. -/
def keywords : List Kind :=
  [kwAnd, kwClass, kwElse, kwFalse, kwFor, kwFun, kwIf, kwNil, kwOr, kwPrint, kwReturn, kwSuper,
    kwThis, kwTrue, kwVar, kwWhile]

/-- The kind of a word: the keyword spelled that way, or else an identifier. -/
def ofWord (word : String) : Kind :=
  (keywords.find? fun k => k.spelling == word).getD identifier

/-- The kinds spelled as one character. -/
def symbols : List Kind :=
  [leftParen, rightParen, leftBrace, rightBrace, comma, dot, minus, plus, semicolon, slash, star,
    bang, equal, greater, less]

/-- The symbol spelled as this one character. -/
def ofChar? (c : Char) : Option Kind :=
  symbols.find? fun k => k.spelling == c.toString

/-- The symbol that a symbol becomes when an equals sign follows it. -/
def withEqual? : Kind → Option Kind
  | bang => some bangEqual
  | equal => some equalEqual
  | greater => some greaterEqual
  | less => some lessEqual
  | _ => none

/-! ### Roles -/

/-- Does a token of this kind begin a statement? -/
def beginsStatement : Kind → Bool
  | kwClass | kwFun | kwVar | kwFor | kwIf | kwWhile | kwPrint | kwReturn => true
  | _ => false

/-- How tightly a binary operator binds: equality 1, comparison 2, addition 3 and
multiplication 4. All other kinds are no binary operators. -/
def binding? : Kind → Option Nat
  | bangEqual | equalEqual => some 1
  | greater | greaterEqual | less | lessEqual => some 2
  | minus | plus => some 3
  | slash | star => some 4
  | _ => none

/-- Does the kind stand as an operator before its operand? -/
def isPrefixOperator : Kind → Bool
  | bang | minus => true
  | _ => false

/-! ### Names -/

/-- The name of the kind, as displayed with a token. -/
def name : Kind → String
  | leftParen => "LeftParen"
  | rightParen => "RightParen"
  | leftBrace => "LeftBrace"
  | rightBrace => "RightBrace"
  | comma => "Comma"
  | dot => "Dot"
  | minus => "Minus"
  | plus => "Plus"
  | semicolon => "Semicolon"
  | slash => "Slash"
  | star => "Star"
  | bang => "Bang"
  | bangEqual => "BangEqual"
  | equal => "Equal"
  | equalEqual => "EqualEqual"
  | greater => "Greater"
  | greaterEqual => "GreaterEqual"
  | less => "Less"
  | lessEqual => "LessEqual"
  | identifier => "Identifier"
  | string => "String"
  | number => "Number"
  | kwAnd => "And"
  | kwClass => "Class"
  | kwElse => "Else"
  | kwFalse => "False"
  | kwFor => "For"
  | kwFun => "Fun"
  | kwIf => "If"
  | kwNil => "Nil"
  | kwOr => "Or"
  | kwPrint => "Print"
  | kwReturn => "Return"
  | kwSuper => "Super"
  | kwThis => "This"
  | kwTrue => "True"
  | kwVar => "Var"
  | kwWhile => "While"
  | eof => "Eof"

/-- The kind with the given name. -/
def ofName? (name : String) : Option Kind :=
  all.find? fun k => k.name == name

theorem ofName?_name (k : Kind) : ofName? k.name = some k := by
  cases k <;> decide

end Kind

end LoxCalc
