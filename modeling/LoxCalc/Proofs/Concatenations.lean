import LoxCalc.Expr.Postorder
import LoxCalc.Proofs.ValueKinds

/-!
# LoxCalc.Proofs.Concatenations

Trees whose value is a string.

The rules of kinds leave one way to get a string: string literals, and above them nothing but
sums and groupings (`HasKind.joins`). Such a tree never fails. Its value is all of its literals
put together from left to right (`Expr.eval_of_joins`), so neither the groupings nor the order
of the sums can be told from it.
-/

namespace LoxCalc

/-! ### Nodes above strings -/

/-- The node is a string literal, a grouping or a sum. -/
def Node.Joins : Node → Prop
  | literal v => ∃ s, v = .string s
  | grouping => True
  | unary _ => False
  | binary op => op.kind = .plus

/-- No prefix operator makes a string. -/
theorem Maps.ne_string {op : Kind} {a k : ValueKind} (h : Maps op a k) : k ≠ .string := by
  cases h <;> nofun

/-- The only binary operator that makes a string is the sum, of two strings. -/
theorem Combines.of_string {op : Kind} {a b : ValueKind} (h : Combines op a b .string) :
    op = .plus ∧ a = .string ∧ b = .string := by
  cases h with
  | concatenation => exact ⟨rfl, rfl, rfl⟩

theorem HasKind.joins {e : Expr} {k : ValueKind} (h : HasKind e k) (hk : k = .string) :
    ∀ node ∈ e.postorder, node.Joins := by
  induction h with
  | literal =>
      intro node hnode
      obtain rfl := List.mem_singleton.mp hnode
      exact Value.kind_eq_string hk
  | grouping _ ih =>
      intro node hnode
      rw [Expr.postorder_grouping, List.mem_append, List.mem_singleton] at hnode
      rcases hnode with hnode | rfl
      · exact ih hk node hnode
      · trivial
  | unary _ hmaps _ => exact absurd hk hmaps.ne_string
  | binary _ _ hcombines ihl ihr =>
      subst hk
      obtain ⟨hop, ha, hb⟩ := hcombines.of_string
      intro node hnode
      rw [Expr.postorder_binary, List.mem_append, List.mem_append, List.mem_singleton] at hnode
      rcases hnode with (hnode | hnode) | rfl
      · exact ihl ha node hnode
      · exact ihr hb node hnode
      · exact hop

namespace Expr

/-! ### The strings put together -/

/-- The string literals of a tree, from left to right. -/
def strings : Expr → List String
  | literal (.string s) => [s]
  | literal _ => []
  | grouping e => e.strings
  | unary _ e => e.strings
  | binary l _ r => l.strings ++ r.strings

theorem eval_of_joins {e : Expr} (h : ∀ node ∈ e.postorder, node.Joins) :
    e.eval = .ok (.string (String.join e.strings)) := by
  induction e with
  | literal v =>
      obtain ⟨s, rfl⟩ := h _ (List.mem_singleton_self _)
      simp [strings]
  | grouping e ih =>
      rw [eval_grouping, strings]
      exact ih fun node hnode => h node (by simp [hnode])
  | unary op e _ =>
      have hop : (Node.unary op).Joins := h _ (by simp)
      exact hop.elim
  | binary l op r ihl ihr =>
      have hop : op.kind = .plus := h (.binary op) (by simp)
      have hl := ihl fun node hnode => h node (by simp [hnode])
      have hr := ihr fun node hnode => h node (by simp [hnode])
      have heval : (binary l op r).eval =
          applyBinary op (.string (String.join l.strings)) (.string (String.join r.strings)) := by
        rw [eval, hl, hr]
        rfl
      rw [heval, strings, String.join_append]
      simp only [applyBinary, hop]

/-- A tree has a string for its value just if all its literals are strings and there are only
sums and groupings above them. The string is that of the literals from left to right. -/
theorem eval_eq_string_iff (e : Expr) (s : String) :
    e.eval = .ok (.string s) ↔
      (∀ node ∈ e.postorder, node.Joins) ∧ s = String.join e.strings := by
  constructor
  · intro h
    have hjoins := (hasKind_of_eval h).joins rfl
    rw [eval_of_joins hjoins] at h
    cases h
    exact ⟨hjoins, rfl⟩
  · rintro ⟨hjoins, rfl⟩
    exact eval_of_joins hjoins

end Expr

end LoxCalc
