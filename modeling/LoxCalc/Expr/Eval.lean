import LoxCalc.Expr.Basic

/-!
# LoxCalc.Expr.Eval

Evaluation of expression trees, from left to right. It ends with a value or with
the first error, which is blamed on the operator that could not be applied.
-/

namespace LoxCalc

/-- Why an operator could not be applied. -/
inductive EvalFault where
  /-- A sign before something else than a number. -/
  | operandNotNumber
  /-- Arithmetic or an order comparison of something else than two numbers. -/
  | operandsNotNumbers
  /-- A sum of something else than two numbers or two strings. -/
  | operandsNotAddable
  /-- A division by one of the zeros. -/
  | divisionByZero
  /-- A token that is no operator at its place. -/
  | notOperator
  /-- A fault in the words of whoever reports it. -/
  | other (message : String)
deriving DecidableEq

/-- A failed evaluation, blamed on an operator. -/
structure EvalError where
  operator : Token
  fault : EvalFault
deriving DecidableEq

/-- The wording of the error. -/
def EvalError.message (e : EvalError) : String :=
  match e.fault with
  | .operandNotNumber => "Operand must be a number."
  | .operandsNotNumbers => "Operands must be numbers."
  | .operandsNotAddable => "Operands must be two numbers or two strings."
  | .divisionByZero => "Division by zero."
  | .notOperator => "Unknown operator '" ++ e.operator.lexeme ++ "'."
  | .other message => message

/-- The outcome of an evaluation. -/
abbrev Outcome := Except EvalError Value

/-! ### Applying one operator -/

/-- Applies an operator on numbers to two values. -/
def onNumbers (operator : Token) (left right : Value) (f : Double → Double → Outcome) :
    Outcome :=
  match left, right with
  | .number x, .number y => f x y
  | _, _ => .error ⟨operator, .operandsNotNumbers⟩

/-- Applies an operator between two values. Its kind decides, not its lexeme. -/
def applyBinary (operator : Token) (left right : Value) : Outcome :=
  match operator.kind with
  | .plus =>
    match left, right with
    | .number x, .number y => .ok (.number (x + y))
    | .string s, .string t => .ok (.string (s ++ t))
    | _, _ => .error ⟨operator, .operandsNotAddable⟩
  | .minus => onNumbers operator left right fun x y => .ok (.number (x - y))
  | .star => onNumbers operator left right fun x y => .ok (.number (x * y))
  | .slash =>
    onNumbers operator left right fun x y =>
      if y.isZero then .error ⟨operator, .divisionByZero⟩ else .ok (.number (x / y))
  | .greater => onNumbers operator left right fun x y => .ok (.boolean (y.less x))
  | .greaterEqual => onNumbers operator left right fun x y => .ok (.boolean (y.lessOrEqual x))
  | .less => onNumbers operator left right fun x y => .ok (.boolean (x.less y))
  | .lessEqual => onNumbers operator left right fun x y => .ok (.boolean (x.lessOrEqual y))
  | .equalEqual => .ok (.boolean (left.equals right))
  | .bangEqual => .ok (.boolean (!left.equals right))
  | _ => .error ⟨operator, .notOperator⟩

/-- Applies an operator before a value. -/
def applyUnary (operator : Token) (operand : Value) : Outcome :=
  match operator.kind with
  | .minus =>
    match operand with
    | .number x => .ok (.number (-x))
    | _ => .error ⟨operator, .operandNotNumber⟩
  | .bang => .ok (.boolean (!operand.truthy))
  | _ => .error ⟨operator, .notOperator⟩

/-! ### Evaluating a tree -/

namespace Expr

/-- The value of a tree. Operands are evaluated, from left to right, before their
operator is looked at. -/
def eval : Expr → Outcome
  | literal v => .ok v
  | grouping e => e.eval
  | unary op e => e.eval >>= applyUnary op
  | binary l op r => l.eval >>= fun left => r.eval >>= fun right => applyBinary op left right

@[simp] theorem eval_literal (v : Value) : (literal v).eval = .ok v := rfl

@[simp] theorem eval_grouping (e : Expr) : (grouping e).eval = e.eval := rfl

end Expr

/-! ### Recording applications -/

/-- A binary operator about to be applied to two values. -/
structure Application where
  left : Value
  operator : Token
  right : Value
deriving DecidableEq

namespace Expr

/-- Evaluates a tree and lists the binary operators that came to be applied, in
order; the last of them may have failed. -/
def evalListing : Expr → List Application × Outcome
  | literal v => ([], .ok v)
  | grouping e => e.evalListing
  | unary op e =>
    let (applications, outcome) := e.evalListing
    (applications, outcome >>= applyUnary op)
  | binary l op r =>
    match l.evalListing with
    | (before, .error e) => (before, .error e)
    | (before, .ok left) =>
      match r.evalListing with
      | (between, .error e) => (before ++ between, .error e)
      | (between, .ok right) =>
        (before ++ between ++ [⟨left, op, right⟩], applyBinary op left right)

/-- Listing the applications does not change the outcome. -/
theorem evalListing_snd (e : Expr) : e.evalListing.2 = e.eval := by
  induction e with
  | literal v => rfl
  | grouping e ih => exact ih
  | unary op e ih =>
      rw [eval, ← ih]
      rfl
  | binary l op r ihl ihr =>
      rw [eval, ← ihl, ← ihr, evalListing]
      split
      · rename_i before e h
        rw [h]
        rfl
      · rename_i before left h
        rw [h]
        split
        · rename_i between e h'
          rw [h']
          rfl
        · rename_i between right h'
          rw [h']
          rfl

end Expr

end LoxCalc
