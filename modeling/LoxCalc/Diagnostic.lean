import LoxCalc.Source.Scan
import LoxCalc.Reading.Automaton
import LoxCalc.Expr.Eval

/-!
# LoxCalc.Diagnostic

The errors of all stages as they are shown to the user. Errors of scanning and
reading are static: they are found before anything is evaluated.
-/

namespace LoxCalc

/-- An error of some stage. -/
inductive Diagnostic where
  | scan (error : ScanError)
  | parse (error : ParseError)
  | runtime (error : EvalError)
deriving DecidableEq

namespace Diagnostic

/-- Was the error found before evaluation? -/
def isStatic : Diagnostic → Bool
  | scan _ | parse _ => true
  | runtime _ => false

/-- The line of the error: that of the token to blame, if there is one. -/
def line : Diagnostic → Nat
  | scan e => e.line
  | parse e => e.token.line
  | runtime e => e.operator.line

/-- Where the error is said to be, apart from its line. Only errors of reading tell
that. -/
def location : Diagnostic → String
  | parse e => e.token.location
  | scan _ | runtime _ => ""

/-- The wording of the error. -/
def message : Diagnostic → String
  | scan e => e.message
  | parse e => e.message
  | runtime e => e.message

/-- The text shown to the user. -/
def text (d : Diagnostic) : String :=
  if d.isStatic then
    "[line " ++ d.line.repr ++ "] Error" ++ d.location ++ ": " ++ d.message
  else
    d.message ++ "\n[line " ++ d.line.repr ++ "]"

/-- The form of a diagnostic in a log record. -/
def logText (d : Diagnostic) : String :=
  if d.isStatic then
    "Static \x7b line: " ++ d.line.repr ++ ", location: " ++ quoted d.location ++
      ", message: " ++ quoted d.message ++ " \x7d"
  else
    "Runtime \x7b line: " ++ d.line.repr ++ ", message: " ++ quoted d.message ++ " \x7d"

end Diagnostic

end LoxCalc
