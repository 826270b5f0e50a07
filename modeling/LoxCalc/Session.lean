import LoxCalc.Diagnostic
import LoxCalc.Reading.TokenStream

/-!
# LoxCalc.Session

A session takes one input after the other. It collects the diagnostics until they
are drained, and remembers until it is reset whether there were any.

* `Reading` is what one source comes to before evaluation: its tree and its static
  errors, which do not depend on the session.
* `Session.readFrom` reads an expression of a stream, and records why if it cannot be
  read. `Session.parse` and `Session.run` give the tree or the value of a source, and
  record what is wrong with it.
* `Action` lists everything that can be done to a session, for histories of it.
-/

namespace LoxCalc

/-! ### Reading a source -/

/-- A source before evaluation. -/
structure Reading where
  /-- The errors of scanning, then that of reading if there is one. -/
  errors : List Diagnostic
  /-- The tree of the first expression, however the scan went. -/
  tree? : Option Expr

/-- Scans a source and reads its first expression. -/
def readSource (source : String) : Reading :=
  let scanned := scan source
  let errors := scanned.errors.map Diagnostic.scan
  match ((TokenStream.ofTokens scanned.tokens).read).outcome with
  | .ok tree => ⟨errors, some tree⟩
  | .error e => ⟨errors ++ [.parse e], none⟩

/-- All errors before evaluation are static. -/
theorem isStatic_of_mem_errors (source : String) :
    ∀ d ∈ (readSource source).errors, d.isStatic := by
  intro d hd
  have hscan : ∀ d ∈ (scan source).errors.map Diagnostic.scan, d.isStatic := by
    intro d hd
    obtain ⟨e, -, rfl⟩ := List.mem_map.mp hd
    rfl
  unfold readSource at hd
  dsimp only at hd
  split at hd
  · exact hscan d hd
  · rcases List.mem_append.mp hd with hd | hd
    · exact hscan d hd
    · obtain rfl := List.mem_singleton.mp hd
      rfl

/-- The tree of a source without errors. A tree beside errors of scanning is not
given out. -/
def Reading.accepted? (r : Reading) : Option Expr :=
  if r.errors.isEmpty then r.tree? else none

/-! ### Sessions -/

/-- The state of a session. -/
structure Session where
  /-- The diagnostics not yet drained, in the order they were recorded. -/
  pending : List Diagnostic
  /-- How many static errors were recorded since the last reset. -/
  staticCount : Nat
  /-- Was an error of evaluation recorded since the last reset? -/
  evaluationFailed : Bool
deriving DecidableEq

namespace Session

/-- A session in which nothing has happened. -/
def fresh : Session := ⟨[], 0, false⟩

/-- Records diagnostics. -/
def record (s : Session) (found : List Diagnostic) : Session :=
  { pending := s.pending ++ found
    staticCount := s.staticCount + found.countP Diagnostic.isStatic
    evaluationFailed := s.evaluationFailed || found.any (!·.isStatic) }

@[simp] theorem record_nil (s : Session) : s.record [] = s := by
  simp [record]

theorem record_record (s : Session) (a b : List Diagnostic) :
    (s.record a).record b = s.record (a ++ b) := by
  simp [record, Nat.add_assoc, Bool.or_assoc]

/-- Hands out the pending diagnostics. What they have shown stays remembered. -/
def drain (s : Session) : List Diagnostic × Session := (s.pending, { s with pending := [] })

/-- Forgets everything. -/
def reset (_ : Session) : Session := fresh

/-- Was a static error recorded? -/
def hasStaticErrors (s : Session) : Bool := 0 < s.staticCount

/-- The exit code of a process that ends with this session: static errors outrank
errors of evaluation. -/
def exitCode (s : Session) : Nat :=
  if s.hasStaticErrors then 65 else if s.evaluationFailed then 70 else 0

/-- Scans a source and records the errors. -/
def scanSource (s : Session) (source : String) : TokenStream × Session :=
  let scanned := scan source
  (.ofTokens scanned.tokens, s.record (scanned.errors.map Diagnostic.scan))

/-- Reads one expression of a stream. If there is none, the error is recorded. -/
def readFrom (s : Session) (stream : TokenStream) : Option Expr × TokenStream × Session :=
  let attempt := stream.read
  match attempt.outcome with
  | .ok tree => (some tree, attempt.stream, s)
  | .error e => (none, attempt.stream, s.record [.parse e])

/-- The tree of a source, if its errors did not raise the count of static errors. -/
def parse (s : Session) (source : String) : Option Expr × Session :=
  let (stream, scanned) := s.scanSource source
  let (tree?, _, after) := scanned.readFrom stream
  (if s.staticCount < after.staticCount then none else tree?, after)

/-- Scanning and reading in a session give and record what the source comes to. -/
theorem readFrom_scanSource (s : Session) (source : String) :
    let scanned := s.scanSource source
    (scanned.2.readFrom scanned.1).1 = (readSource source).tree? ∧
      (scanned.2.readFrom scanned.1).2.2 = s.record (readSource source).errors := by
  simp only [scanSource, readFrom, readSource]
  split
  · exact ⟨rfl, rfl⟩
  · exact ⟨rfl, record_record ..⟩

/-- The count is raised just if there are errors: whatever was counted before, a tree is
given out just if there is nothing wrong with the source. -/
theorem parse_eq (s : Session) (source : String) :
    s.parse source = ((readSource source).accepted?, s.record (readSource source).errors) := by
  obtain ⟨htree, hafter⟩ := s.readFrom_scanSource source
  have hcount : s.staticCount < (s.record (readSource source).errors).staticCount ↔
      (readSource source).errors ≠ [] := by
    rw [record, List.countP_eq_length.mpr (isStatic_of_mem_errors source),
      Nat.lt_add_right_iff_pos, List.length_pos_iff]
  unfold parse Reading.accepted?
  dsimp only
  rw [htree, hafter]
  by_cases herrors : (readSource source).errors = [] <;> simp [hcount, herrors]

/-- The value of a source, if nothing goes wrong. -/
def run (s : Session) (source : String) : Option Value × Session :=
  match s.parse source with
  | (none, s) => (none, s)
  | (some tree, s) =>
    match tree.eval with
    | .ok v => (some v, s)
    | .error e => (none, s.record [.runtime e])

end Session

/-! ### Actions -/

/-- Something done to a session. -/
inductive Action where
  /-- Runs a source. -/
  | run (source : String)
  /-- Reads a source without evaluating it. -/
  | parse (source : String)
  /-- Takes all pending diagnostics. -/
  | drain
  /-- Takes some of the pending diagnostics and drops the others. -/
  | drainSome (count : Nat)
  /-- Starts over. -/
  | reset
  /-- Hands over a diagnostic from elsewhere. -/
  | record (diagnostic : Diagnostic)
deriving DecidableEq

/-- What an action gives to whoever does it. -/
inductive Reply where
  | value (value? : Option Value)
  | tree (tree? : Option Expr)
  | diagnostics (taken : List Diagnostic)
  | nothing

namespace Session

/-- Does an action. -/
def perform (s : Session) : Action → Reply × Session
  | .run source =>
    let (v, s) := s.run source
    (.value v, s)
  | .parse source =>
    let (tree, s) := s.parse source
    (.tree tree, s)
  | .drain =>
    let (taken, s) := s.drain
    (.diagnostics taken, s)
  | .drainSome count =>
    let (taken, s) := s.drain
    (.diagnostics (taken.take count), s)
  | .reset => (.nothing, s.reset)
  | .record d => (.nothing, s.record [d])

end Session

end LoxCalc
