import LoxCalc.Session

/-!
# LoxCalc.Log

The log of what the stages do, as data and as text. Each record is derived from the
result of a stage, so that keeping a log cannot change what is computed.
-/

namespace LoxCalc

/-- Something worth a line in the log. -/
inductive LogRecord where
  /-- A token was scanned. -/
  | scannedToken (t : Token)
  /-- A scan ended, with so many tokens and errors. -/
  | scanned (tokens errors : Nat)
  /-- The reading of an expression begins. -/
  | reading (position size : Nat)
  /-- A token was skipped after an error. -/
  | skipped (t : Token)
  /-- Reading can resume at this token. -/
  | synchronized (t : Token)
  /-- A binary operator is about to be applied. -/
  | applying (a : Application)
  /-- An evaluation gave a value. -/
  | evaluated (v : Value)
  /-- An evaluation failed. -/
  | failed (e : EvalError)
  /-- A diagnostic was recorded. -/
  | recorded (d : Diagnostic)
deriving DecidableEq

namespace LogRecord

/-- How important a record is, and where it comes from. -/
def heading : LogRecord → String
  | scannedToken _ => "TRACE rlox_expr::scanner "
  | scanned _ _ => "DEBUG rlox_expr::scanner "
  | reading _ _ => "DEBUG rlox_expr::parser "
  | skipped _ => "TRACE rlox_expr::parser "
  | synchronized _ => "DEBUG rlox_expr::parser "
  | applying _ => "TRACE rlox_expr::interpreter "
  | evaluated _ | failed _ => "DEBUG rlox_expr::interpreter "
  | recorded _ => "DEBUG rlox_expr::reporter "

/-- What the record says. -/
def message : LogRecord → String
  | scannedToken t => "token: " ++ t.text
  | scanned tokens errors => "scanned " ++ tokens.repr ++ " tokens, " ++ errors.repr ++ " errors"
  | reading position size => "parsing from token " ++ position.repr ++ " of " ++ size.repr
  | skipped t => "synchronize skipped " ++ t.text
  | synchronized t => "synchronized at " ++ t.text
  | applying a => a.left.logText ++ " " ++ a.operator.lexeme ++ " " ++ a.right.logText
  | evaluated v => "evaluated to " ++ v.logText
  | failed e => "evaluation failed at " ++ e.operator.text ++ ": " ++ e.message
  | recorded d =>
    (if d.isStatic then "static" else "runtime") ++ " error recorded: " ++ d.logText

/-- A line of the log. -/
def text (r : LogRecord) : String := r.heading ++ r.message

end LogRecord

/-! ### The log of each stage -/

/-- The log of a scan. The end of the input is no token of the source. -/
def Scan.log (s : Scan) : List LogRecord :=
  (s.tokens.filter (·.kind != .eof)).map .scannedToken ++
    .scanned s.tokens.length s.errors.length :: s.errors.map (.recorded <| .scan ·)

/-- The log of a reading that began on the given stream. -/
def TokenStream.Attempt.log (start : TokenStream) (a : Attempt) : List LogRecord :=
  .reading start.position start.size ::
    match a.outcome with
    | .ok _ => []
    | .error e =>
      .recorded (.parse e) :: (a.skipped.map .skipped ++ [.synchronized a.stream.current])

/-- The log of an evaluation. -/
def Expr.evalLog (e : Expr) : List LogRecord :=
  let (applications, outcome) := e.evalListing
  applications.map .applying ++
    match outcome with
    | .ok v => [.evaluated v]
    | .error e => [.failed e, .recorded (.runtime e)]

/-- The log of reading and evaluating some expressions of a stream. -/
def TokenStream.log (s : TokenStream) : Nat → List LogRecord
  | 0 => []
  | count + 1 =>
    let attempt := s.read
    let evaluation :=
      match attempt.outcome with
      | .ok tree => tree.evalLog
      | .error _ => []
    attempt.log s ++ evaluation ++ attempt.stream.log count

/-- The log of a source of which some expressions are read and evaluated. -/
def logSource (source : String) (count : Nat) : List LogRecord :=
  let scanned := scan source
  scanned.log ++ (TokenStream.ofTokens scanned.tokens).log count

end LoxCalc
