import LoxCalc.Number.Decimal

/-!
# LoxCalc.Value

The values that expressions have: numbers, strings, Booleans and nil.

As with numbers, `=` compares values bit for bit, while `Value.equals` is the
language's own comparison, in which NaN differs from itself.
-/

namespace LoxCalc

/-- The value of an expression, and the literal of a number or string token. -/
inductive Value where
  /-- A binary64 number. -/
  | number (x : Double)
  /-- A text. -/
  | string (s : String)
  /-- A truth value. -/
  | boolean (b : Bool)
  /-- The absent value. -/
  | nil
deriving DecidableEq

namespace Value

/-- Everything but nil and false counts as true, zero and the empty text too. -/
def truthy : Value → Bool
  | nil => false
  | boolean b => b
  | number _ | string _ => true

/-- The language's equality: values of different kinds are never equal. -/
def equals : Value → Value → Bool
  | number x, number y => x.equals y
  | string s, string t => s == t
  | boolean a, boolean b => a == b
  | nil, nil => true
  | _, _ => false

/-- The text of a Boolean. -/
def booleanText (b : Bool) : String := if b then "true" else "false"

/-- The text of a value. A string stands without quotes. -/
def text : Value → String
  | number x => x.text
  | string s => s
  | boolean b => booleanText b
  | nil => "nil"

end Value

/-! ### Log form -/

/-- A character inside a quoted string of a log record: quotes, backslashes and
control characters are escaped. -/
def escaped (c : Char) : String :=
  if c = '"' then "\\\""
  else if c = '\\' then "\\\\"
  else if c = '\n' then "\\n"
  else if c = '\r' then "\\r"
  else if c = '\t' then "\\t"
  else if c.toNat = 0 then "\\0"
  else if c.toNat < 32 || c.toNat = 127 then
    "\\u\x7b" ++ .ofList (Nat.toDigits 16 c.toNat) ++ "\x7d"
  else c.toString

/-- A string of a log record, in quotes. -/
def quoted (s : String) : String :=
  "\"" ++ String.join (s.toList.map escaped) ++ "\""

/-- The form of a value in a log record, which names its kind. -/
def Value.logText : Value → String
  | number x => "Number(" ++ x.logText ++ ")"
  | string s => "String(" ++ quoted s ++ ")"
  | boolean b => "Boolean(" ++ booleanText b ++ ")"
  | nil => "Nil"

end LoxCalc
