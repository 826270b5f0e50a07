import LoxCalc.Reading.Frame

/-!
# LoxCalc.Reading.Automaton

Reading one expression from a list of tokens. A stack automaton takes the tokens
from left to right; it waits for an operand, or it holds a finished tree and looks
at what follows it.

* `State.step` looks at one token: it takes the token, or it stops before it because
  the expression is complete, or it fails.
* `State.run` repeats that until the expression is complete or has failed. Every
  step but the last takes a token, so a run is a recursion on the tokens.

Binary operators associate to the left: an operator settles what binds as tightly
before it waits for its right operand.
-/

namespace LoxCalc

/-! ### Errors -/

/-- Why tokens do not go on as an expression. -/
inductive ParseFault where
  /-- Neither an operand nor a prefix operator nor a parenthesis where an operand is
  due. -/
  | missingExpression
  /-- An expression in parentheses is complete, and no closing one follows. -/
  | unclosedGroup
  /-- A prefix operator or parenthesis past the limit of nesting. -/
  | tooDeep
  /-- A number or string token without its value. -/
  | missingLiteral
  /-- A fault in the words of whoever reports it. -/
  | other (message : String)
deriving DecidableEq

/-- The wording of the fault. -/
def ParseFault.message : ParseFault → String
  | missingExpression => "Expect expression."
  | unclosedGroup => "Expect ')' after expression."
  | tooDeep => "Expression nested too deeply."
  | missingLiteral => "Expect literal value."
  | other message => message

/-- A failed reading, blamed on a token. -/
structure ParseError where
  token : Token
  fault : ParseFault
deriving DecidableEq

/-- The wording of the error. -/
def ParseError.message (e : ParseError) : String := e.fault.message

/-! ### States and steps -/

/-- Where the reading of an expression stands. -/
inductive State where
  /-- An operand is due. -/
  | awaiting (stack : List Frame)
  /-- An operand has been read. -/
  | holding (stack : List Frame) (tree : Expr)
deriving DecidableEq

/-- The effect of one token on a state. -/
inductive Step where
  /-- The token is taken, and the reading goes on. -/
  | advance (state : State)
  /-- The expression was complete before the token. -/
  | complete (tree : Expr)
  /-- The token is at fault, whether it is taken or not. -/
  | fail (fault : ParseFault) (taken : Bool)
deriving DecidableEq

namespace State

/-- Opens a level of nesting, within the limit. -/
def openLevel (frame : Frame) (stack : List Frame) : Step :=
  if Frame.depth stack < nestingLimit then .advance (awaiting (frame :: stack))
  else .fail .tooDeep true

/-- A token where an operand is due. -/
def stepOperand (stack : List Frame) (t : Token) : Step :=
  match t.kind with
  | .bang | .minus => openLevel (.unary t) stack
  | .leftParen => openLevel .group stack
  | .kwFalse => .advance (holding stack (.literal (.boolean false)))
  | .kwTrue => .advance (holding stack (.literal (.boolean true)))
  | .kwNil => .advance (holding stack (.literal .nil))
  | .number | .string =>
    match t.literal with
    | some v => .advance (holding stack (.literal v))
    | none => .fail .missingLiteral true
  | _ => .fail .missingExpression false

/-- A token after an operand: a binary operator goes on with the expression, and
anything else ends it, or the innermost grouping. -/
def stepOperator (stack : List Frame) (tree : Expr) (t : Token) : Step :=
  match t.kind.binding? with
  | some binding =>
    let (stack, tree) := Frame.settle binding stack tree
    .advance (awaiting (.binary tree t :: stack))
  | none =>
    match Frame.settle 0 stack tree with
    | (.group :: outer, tree) =>
      if t.kind = .rightParen then .advance (holding outer (.grouping tree))
      else .fail .unclosedGroup false
    | (_, tree) => .complete tree

/-- The effect of a token. -/
def step : State → Token → Step
  | awaiting stack, t => stepOperand stack t
  | holding stack tree, t => stepOperator stack tree t

/-- The effect of the end of the tokens, of which nothing can be taken. -/
def finish : State → Except ParseFault Expr
  | awaiting _ => .error .missingExpression
  | holding stack tree =>
    match Frame.settle 0 stack tree with
    | (.group :: _, _) => .error .unclosedGroup
    | (_, tree) => .ok tree

end State

/-! ### Runs -/

/-- A reading that failed: the fault, the token to blame unless it is the end, and
the tokens not taken. -/
structure Failure where
  fault : ParseFault
  culprit? : Option Token
  rest : List Token
deriving DecidableEq

/-- Reads an expression from a state on, and gives it with the tokens that follow
it. -/
def State.run : State → List Token → Except Failure (Expr × List Token)
  | state, [] =>
    match state.finish with
    | .ok tree => .ok (tree, [])
    | .error fault => .error ⟨fault, none, []⟩
  | state, t :: rest =>
    match state.step t with
    | .advance next => next.run rest
    | .complete tree => .ok (tree, t :: rest)
    | .fail fault taken => .error ⟨fault, some t, if taken then rest else t :: rest⟩

/-- Reads an expression from the beginning of the tokens. -/
def readExpr (tokens : List Token) : Except Failure (Expr × List Token) :=
  (State.awaiting []).run tokens

end LoxCalc
