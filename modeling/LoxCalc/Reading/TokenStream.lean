import LoxCalc.Reading.Automaton

/-!
# LoxCalc.Reading.TokenStream

A sequence of tokens from which one expression after the other is read.

The first token for the end of the input is a wall: it is the token to blame when
the tokens before it run out, and what stands behind it is never looked at. After
an error the stream is moved to a place where a statement may begin (`recover`).
-/

namespace LoxCalc

/-- Tokens to read from. -/
structure TokenStream where
  /-- How many tokens have been left behind. -/
  position : Nat
  /-- The tokens from the position to the end of the input. -/
  pending : List Token
  /-- The token for the end of the input. -/
  stop : Token
  /-- How many tokens there are in all. -/
  size : Nat
deriving DecidableEq

/-! ### Recovery -/

/-- Skips tokens up to one that begins a statement, or to one after a semicolon;
`previous` is the token before them. Gives the skipped tokens and the others. -/
def skipToStatement (previous : Token) : List Token → List Token × List Token
  | [] => ([], [])
  | t :: rest =>
    if previous.kind = .semicolon ∨ t.kind.beginsStatement then
      ([], t :: rest)
    else
      let (skipped, others) := skipToStatement t rest
      (t :: skipped, others)

/-- Leaves one token behind unseen and skips to where a statement may begin. -/
def recover : List Token → List Token × List Token
  | [] => ([], [])
  | t :: rest => skipToStatement t rest

theorem skipToStatement_append (previous : Token) (tokens : List Token) :
    (skipToStatement previous tokens).1 ++ (skipToStatement previous tokens).2 = tokens := by
  induction tokens generalizing previous with
  | nil => rfl
  | cons t rest ih =>
      rw [skipToStatement]
      split
      · rfl
      · rw [List.cons_append, ih]

namespace TokenStream

/-! ### Streams -/

/-- The tokens with the end of the input after them. If they do not end with it
already, it is put behind the last one, on its line. -/
def closed (tokens : List Token) : List Token :=
  match tokens.getLast? with
  | none => [.endOfInput 1]
  | some last => if last.kind = .eof then tokens else tokens ++ [.endOfInput last.line]

/-- The stream of all the tokens. -/
def ofTokens (tokens : List Token) : TokenStream :=
  let all := closed tokens
  { position := 0
    pending := all.takeWhile (·.kind != .eof)
    stop := (all.find? (·.kind == .eof)).getD (.endOfInput 1)
    size := all.length }

/-- The token at the position. -/
def current (s : TokenStream) : Token := s.pending.head?.getD s.stop

/-- The stream when only some tokens at its end are still pending. -/
def moveTo (s : TokenStream) (rest : List Token) : TokenStream :=
  { s with position := s.position + (s.pending.length - rest.length), pending := rest }

/-- What reading an expression from a stream gives. -/
structure Attempt where
  /-- The expression, or the error. -/
  outcome : Except ParseError Expr
  /-- The tokens that were skipped after an error. -/
  skipped : List Token
  /-- The stream afterwards. -/
  stream : TokenStream

/-- Reads one expression. What follows it stays in the stream; after an error, the
stream stands where a statement may begin. -/
def read (s : TokenStream) : Attempt :=
  match readExpr s.pending with
  | .ok (tree, rest) => ⟨.ok tree, [], s.moveTo rest⟩
  | .error failure =>
    let (skipped, rest) := recover failure.rest
    ⟨.error ⟨failure.culprit?.getD s.stop, failure.fault⟩, skipped, s.moveTo rest⟩

end TokenStream

end LoxCalc
