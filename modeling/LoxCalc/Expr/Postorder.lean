import LoxCalc.Expr.Basic

/-!
# LoxCalc.Expr.Postorder

Trees as lists of nodes in postorder: children before their parent, left before
right. Reading such a list back is a run of a stack machine (`ofPostorder?`), and
gives the tree again (`ofPostorder?_postorder`).
-/

namespace LoxCalc

/-- A node of a tree without its children. -/
inductive Node where
  | literal (value : Value)
  | grouping
  | unary (operator : Token)
  | binary (operator : Token)
deriving DecidableEq

namespace Expr

/-- The nodes of a tree in postorder, followed by more nodes. -/
def postorderThen (more : List Node) : Expr → List Node
  | literal v => .literal v :: more
  | grouping e => e.postorderThen (.grouping :: more)
  | unary op e => e.postorderThen (.unary op :: more)
  | binary l op r => l.postorderThen (r.postorderThen (.binary op :: more))

/-- The nodes of a tree in postorder. -/
def postorder (e : Expr) : List Node := e.postorderThen []

theorem postorderThen_eq (e : Expr) (more : List Node) :
    e.postorderThen more = e.postorder ++ more := by
  unfold postorder
  induction e generalizing more with
  | literal v => rfl
  | grouping e ih => rw [postorderThen, ih, postorderThen, ih [.grouping], List.append_assoc]; rfl
  | unary op e ih => rw [postorderThen, ih, postorderThen, ih [.unary op], List.append_assoc]; rfl
  | binary l op r ihl ihr =>
      rw [postorderThen, ihl, ihr, postorderThen, ihl (postorderThen _ r), ihr [.binary op]]
      simp only [List.append_assoc, List.cons_append, List.nil_append]

@[simp] theorem postorder_literal (v : Value) : (literal v).postorder = [.literal v] := rfl

@[simp] theorem postorder_grouping (e : Expr) :
    (grouping e).postorder = e.postorder ++ [.grouping] :=
  postorderThen_eq e _

@[simp] theorem postorder_unary (op : Token) (e : Expr) :
    (unary op e).postorder = e.postorder ++ [.unary op] :=
  postorderThen_eq e _

@[simp] theorem postorder_binary (l : Expr) (op : Token) (r : Expr) :
    (binary l op r).postorder = l.postorder ++ r.postorder ++ [.binary op] := by
  rw [postorder, postorderThen, postorderThen_eq, postorderThen_eq, List.append_assoc]

/-! ### Reading back -/

/-- Puts a node on top of the trees it takes; the last tree read comes first. -/
def plant : List Expr → Node → Option (List Expr)
  | trees, .literal v => some (literal v :: trees)
  | e :: trees, .grouping => some (grouping e :: trees)
  | e :: trees, .unary op => some (unary op e :: trees)
  | r :: l :: trees, .binary op => some (binary l op r :: trees)
  | _, _ => none

/-- The one tree with these nodes in postorder. -/
def ofPostorder? (nodes : List Node) : Option Expr :=
  match nodes.foldlM plant [] with
  | some [e] => some e
  | _ => none

theorem foldlM_plant_postorder (e : Expr) (trees : List Expr) :
    e.postorder.foldlM plant trees = some (e :: trees) := by
  induction e generalizing trees with
  | literal v => rfl
  | grouping e ih => simp [ih, plant]
  | unary op e ih => simp [ih, plant]
  | binary l op r ihl ihr => simp [ihl, ihr, plant]

theorem ofPostorder?_postorder (e : Expr) : ofPostorder? e.postorder = some e := by
  rw [ofPostorder?, foldlM_plant_postorder]

end Expr

end LoxCalc
