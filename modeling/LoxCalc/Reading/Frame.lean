import LoxCalc.Expr.Basic

/-!
# LoxCalc.Reading.Frame

What is still open while an expression is read: prefix operators and groupings
without their operand yet, and binary operators without their right operand.

The frames stand on a stack, the innermost first. `settle` gives a finished tree to
the innermost frames that bind at least as tightly as what comes next.
-/

namespace LoxCalc

/-- How many groupings and prefix operators may be open inside each other. -/
def nestingLimit : Nat := 128

/-- A part of an expression that waits for a tree. -/
inductive Frame where
  /-- A prefix operator before its operand. -/
  | unary (operator : Token)
  /-- An open parenthesis. -/
  | group
  /-- A binary operator after its left operand. -/
  | binary (left : Expr) (operator : Token)
deriving DecidableEq

namespace Frame

/-- Does the frame count as a level of nesting? -/
def nests : Frame → Bool
  | unary _ | group => true
  | binary _ _ => false

/-- How many levels of nesting are open. -/
def depth (stack : List Frame) : Nat := stack.countP nests

@[simp] theorem depth_nil : depth [] = 0 := rfl

@[simp] theorem depth_unary (op : Token) (stack : List Frame) :
    depth (unary op :: stack) = depth stack + 1 :=
  List.countP_cons_of_pos rfl

@[simp] theorem depth_group (stack : List Frame) : depth (group :: stack) = depth stack + 1 :=
  List.countP_cons_of_pos rfl

@[simp] theorem depth_binary (l : Expr) (op : Token) (stack : List Frame) :
    depth (binary l op :: stack) = depth stack :=
  List.countP_cons_of_neg Bool.false_ne_true

/-- Gives a finished tree to the innermost frames, as long as they are prefix
operators or binary operators that bind at least as tightly as `binding`. A frame
that takes the tree is a finished tree itself. -/
def settle (binding : Nat) : List Frame → Expr → List Frame × Expr
  | unary op :: stack, e => settle binding stack (.unary op e)
  | binary l op :: stack, e =>
    if binding ≤ op.kind.binding?.getD 0 then settle binding stack (.binary l op e)
    else (binary l op :: stack, e)
  | group :: stack, e => (group :: stack, e)
  | [], e => ([], e)

end Frame

end LoxCalc
