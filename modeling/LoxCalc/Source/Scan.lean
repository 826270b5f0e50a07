import LoxCalc.Source.Segment
import LoxCalc.Token.Basic

/-!
# LoxCalc.Source.Scan

Scanning: the tokens and the errors of a source text, both in source order.

Each segment gives a token, an error or nothing, depending only on the segment and
on the line: a token stands on the line where its segment ends, an error on the
line where its segment begins. The tokens end with one for the end of the input.
-/

namespace LoxCalc

/-- What is wrong with a piece of the source. -/
inductive ScanError where
  /-- A character that begins no lexeme. -/
  | stray (line : Nat) (c : Char)
  /-- A string without closing quote, by the line of the opening one. -/
  | unclosed (line : Nat)
deriving DecidableEq

namespace ScanError

/-- The line of the error. -/
def line : ScanError → Nat
  | stray line _ => line
  | unclosed line => line

/-- The wording of the error. -/
def message : ScanError → String
  | stray _ c => "Unexpected character '" ++ c.toString ++ "'."
  | unclosed _ => "Unterminated string."

end ScanError

namespace Segment

/-- The token of a segment that ends on the given line. -/
def token? (line : Nat) (s : Segment) : Option Token :=
  let lexeme := String.ofList s.text
  match s with
  | symbol kind => some ⟨kind, lexeme, none, line⟩
  | number whole fraction =>
    some ⟨.number, lexeme, some (.number (.ofDecimal whole fraction)), line⟩
  | word _ => some ⟨.ofWord lexeme, lexeme, none, line⟩
  | quoted body => some ⟨.string, lexeme, some (.string (.ofList body)), line⟩
  | blank _ | comment _ | unclosed _ | stray _ => none

/-- The error of a segment that begins on the given line. -/
def error? (line : Nat) : Segment → Option ScanError
  | stray c => some (.stray line c)
  | unclosed _ => some (.unclosed line)
  | _ => none

/-- The tokens of consecutive segments of which the first begins on the given line,
and the end of the input. -/
def tokens (line : Nat) : List Segment → List Token
  | [] => [.endOfInput line]
  | s :: rest => (s.token? (line + s.newlines)).toList ++ tokens (line + s.newlines) rest

/-- The errors of consecutive segments of which the first begins on the given
line. -/
def errors (line : Nat) : List Segment → List ScanError
  | [] => []
  | s :: rest => (s.error? line).toList ++ errors (line + s.newlines) rest

end Segment

/-- The result of scanning a source. -/
structure Scan where
  /-- The tokens, of which the last and no other is the end of the input. -/
  tokens : List Token
  /-- The errors. -/
  errors : List ScanError
deriving DecidableEq

/-- Scans a source text, whose lines are counted from 1. -/
def scan (source : String) : Scan :=
  let segments := Segment.cut source.toList
  ⟨Segment.tokens 1 segments, Segment.errors 1 segments⟩

end LoxCalc
