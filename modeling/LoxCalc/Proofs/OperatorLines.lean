import LoxCalc.Expr.Printer
import LoxCalc.Proofs.Grammar

/-!
# LoxCalc.Proofs.OperatorLines

The lines of the operators in a tree.

In the source text of a tree the only newlines are those inside of strings, so an
operator stands on the line that the strings on its left end on (`OnLines`).
`Expr.relined` puts the operators there, and `Expr.unlined` forgets where they are:
two trees are the same but for these lines if they are equal without them.
-/

namespace LoxCalc

/-! ### Newlines from left to right -/

/-- How many newlines a value is written with. -/
def Value.newlines : Value → Nat
  | .string s => s.toList.count '\n'
  | .number _ | .boolean _ | .nil => 0

/-- The values and the operators of a tree, from left to right. -/
def Expr.inorder : Expr → List (Value ⊕ Token)
  | .literal v => [.inl v]
  | .grouping e => e.inorder
  | .unary op e => .inr op :: e.inorder
  | .binary l op r => l.inorder ++ .inr op :: r.inorder

/-- How many newlines some values and operators are written with. -/
def newlinesOf : List (Value ⊕ Token) → Nat
  | [] => 0
  | .inl v :: parts => v.newlines + newlinesOf parts
  | .inr _ :: parts => newlinesOf parts

/-- Each operator stands on the line of what is written before it, which begins on a
given line. -/
def OnLines (line : Nat) (parts : List (Value ⊕ Token)) : Prop :=
  ∀ before op after, parts = before ++ .inr op :: after → op.line = line + newlinesOf before

@[simp] theorem newlinesOf_nil : newlinesOf [] = 0 := rfl

@[simp] theorem newlinesOf_inl (v : Value) (parts : List (Value ⊕ Token)) :
    newlinesOf (.inl v :: parts) = v.newlines + newlinesOf parts := rfl

@[simp] theorem newlinesOf_inr (op : Token) (parts : List (Value ⊕ Token)) :
    newlinesOf (.inr op :: parts) = newlinesOf parts := rfl

@[simp] theorem newlinesOf_append (a b : List (Value ⊕ Token)) :
    newlinesOf (a ++ b) = newlinesOf a + newlinesOf b := by
  induction a with
  | nil => simp
  | cons part a ih =>
      cases part with
      | inl v => simp [ih, Nat.add_assoc]
      | inr op => simp [ih]

@[simp] theorem onLines_nil (line : Nat) : OnLines line [] := by
  intro before op after h
  simp at h

@[simp] theorem onLines_inl {line : Nat} {v : Value} {parts : List (Value ⊕ Token)} :
    OnLines line (.inl v :: parts) ↔ OnLines (line + v.newlines) parts := by
  constructor
  · intro h before op after hparts
    rw [h (.inl v :: before) op after (congrArg _ hparts), newlinesOf_inl, Nat.add_assoc]
  · intro h before op after hparts
    obtain ⟨rfl, -⟩ | ⟨before, rfl, hrest⟩ := List.cons_eq_append_iff.mp hparts
    · simp at hparts
    · rw [h before op after hrest, newlinesOf_inl, Nat.add_assoc]

@[simp] theorem onLines_inr {line : Nat} {op : Token} {parts : List (Value ⊕ Token)} :
    OnLines line (.inr op :: parts) ↔ op.line = line ∧ OnLines line parts := by
  constructor
  · intro h
    refine ⟨h [] op parts rfl, ?_⟩
    intro before op' after hparts
    rw [h (.inr op :: before) op' after (congrArg _ hparts), newlinesOf_inr]
  · rintro ⟨hop, h⟩ before op' after hparts
    obtain ⟨rfl, heq⟩ | ⟨before, rfl, hrest⟩ := List.cons_eq_append_iff.mp hparts
    · obtain ⟨heq, -⟩ := List.cons.inj heq
      obtain rfl := Sum.inr.inj heq
      exact hop
    · rw [h before op' after hrest, newlinesOf_inr]

@[simp] theorem onLines_append {line : Nat} {a b : List (Value ⊕ Token)} :
    OnLines line (a ++ b) ↔ OnLines line a ∧ OnLines (line + newlinesOf a) b := by
  induction a generalizing line with
  | nil => simp
  | cons part a ih =>
      cases part with
      | inl v => simp [ih, Nat.add_assoc]
      | inr op => simp [ih, and_assoc]

namespace Expr

/-! ### Trees with other lines -/

/-- The tree as it is read from its own source text, which begins on a given line. -/
def relined (line : Nat) : Expr → Expr
  | literal v => literal v
  | grouping e => grouping (e.relined line)
  | unary op e => unary { op with line := line } (e.relined line)
  | binary l op r =>
    binary (l.relined line) { op with line := line + newlinesOf l.inorder }
      (r.relined (line + newlinesOf l.inorder))

/-- The tree with all its operators on line 0. -/
def unlined : Expr → Expr
  | literal v => literal v
  | grouping e => grouping e.unlined
  | unary op e => unary { op with line := 0 } e.unlined
  | binary l op r => binary l.unlined { op with line := 0 } r.unlined

theorem unlined_relined (line : Nat) (e : Expr) : (e.relined line).unlined = e.unlined := by
  induction e generalizing line with
  | literal => rfl
  | grouping e ih => rw [relined, unlined, ih, unlined]
  | unary op e ih => rw [relined, unlined, ih, unlined]
  | binary l op r ihl ihr => rw [relined, unlined, ihl, ihr, unlined]

theorem sourceText_unlined (e : Expr) : e.unlined.sourceText = e.sourceText := by
  induction e with
  | literal => rfl
  | grouping e ih => rw [unlined, sourceText, ih, sourceText]
  | unary op e ih => rw [unlined, sourceText, ih, sourceText]
  | binary l op r ihl ihr => rw [unlined, sourceText, ihl, ihr, sourceText]

theorem debugText_unlined (e : Expr) : e.unlined.debugText = e.debugText := by
  induction e with
  | literal => rfl
  | grouping e ih => rw [unlined, debugText, ih, debugText]
  | unary op e ih => rw [unlined, debugText, ih, debugText]
  | binary l op r ihl ihr => rw [unlined, debugText, ihl, ihr, debugText]

theorem nesting_unlined (e : Expr) : e.unlined.nesting = e.nesting := by
  induction e with
  | literal => rfl
  | grouping e ih => rw [unlined, nesting, ih, nesting]
  | unary op e ih => rw [unlined, nesting, ih, nesting]
  | binary l op r ihl ihr => rw [unlined, nesting, ihl, ihr, nesting]

theorem newlinesOf_inorder_unlined (e : Expr) :
    newlinesOf e.unlined.inorder = newlinesOf e.inorder := by
  induction e with
  | literal => rfl
  | grouping e ih => exact ih
  | unary op e ih => simp [unlined, inorder, ih]
  | binary l op r ihl ihr => simp [unlined, inorder, ihl, ihr]

theorem onLines_relined (line : Nat) (e : Expr) : OnLines line (e.relined line).inorder := by
  induction e generalizing line with
  | literal => simp [relined, inorder]
  | grouping e ih => exact ih line
  | unary op e ih => simp [relined, inorder, ih]
  | binary l op r ihl ihr =>
      have hleft : newlinesOf (l.relined line).inorder = newlinesOf l.inorder := by
        rw [← newlinesOf_inorder_unlined, unlined_relined, newlinesOf_inorder_unlined]
      simp [relined, inorder, hleft, ihl, ihr]

end Expr

end LoxCalc
