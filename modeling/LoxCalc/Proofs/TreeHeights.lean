import LoxCalc.Proofs.Reparsing

/-!
# LoxCalc.Proofs.TreeHeights

How high the trees of sources are, and so how deep a recursion on them goes.

The limit of nesting bounds groupings and prefix operators, and precedence bounds how
often a right operand is a binary operation again (`Expr.WellShaped.offLeftHeight_le`).
Only chains of operators that associate to the left are without a bound: a tree is as high
as its source is long (`Expr.height_unbounded`). But for the steps to left operands, the
height of all trees is bounded (`Expr.height_bounded_off_left`).
-/

namespace LoxCalc

namespace Expr

/-- The number of nodes on the longest path from the root to a literal. -/
def height : Expr → Nat
  | literal _ => 1
  | grouping e => e.height + 1
  | unary _ e => e.height + 1
  | binary l _ r => max l.height r.height + 1

/-- The height of a tree where a left operand stands as high as its operation: a step to
it makes no path longer. -/
def offLeftHeight : Expr → Nat
  | literal _ => 1
  | grouping e => e.offLeftHeight + 1
  | unary _ e => e.offLeftHeight + 1
  | binary l _ r => max l.offLeftHeight (r.offLeftHeight + 1)

/-- The most steps to a left operand on a path. -/
def leftSteps : Expr → Nat
  | literal _ => 0
  | grouping e => e.leftSteps
  | unary _ e => e.leftSteps
  | binary l _ r => max (l.leftSteps + 1) r.leftSteps

theorem height_le (e : Expr) : e.height ≤ e.offLeftHeight + e.leftSteps := by
  induction e with
  | literal => exact Nat.le_refl 1
  | grouping e ih | unary op e ih =>
      rw [height, offLeftHeight, leftSteps]
      omega
  | binary l op r ihl ihr =>
      rw [height, offLeftHeight, leftSteps]
      omega

theorem height_relined (line : Nat) (e : Expr) : (e.relined line).height = e.height := by
  induction e generalizing line with
  | literal => rfl
  | grouping e ih => rw [relined, height, ih, height]
  | unary op e ih => rw [relined, height, ih, height]
  | binary l op r ihl ihr => rw [relined, height, ihl, ihr, height]

/-! ### Chains -/

/-- A sum of ones, with a number of additions. -/
def sumOfOnes : Nat → Expr
  | 0 => literal (.number (.ofDecimal ['1'] []))
  | n + 1 => binary (sumOfOnes n) ⟨.plus, "+", none, 1⟩ (literal (.number (.ofDecimal ['1'] [])))

theorem height_sumOfOnes (n : Nat) : (sumOfOnes n).height = n + 1 := by
  induction n with
  | zero => rfl
  | succ n ih =>
      rw [sumOfOnes, height, ih, height]
      omega

theorem printable_sumOfOnes (n : Nat) : (sumOfOnes n).Printable := by
  have hone : WellShaped (literal (.number (.ofDecimal ['1'] []))) := .literal ⟨_, rfl⟩
  induction n with
  | zero => exact ⟨hone, Nat.zero_le _⟩
  | succ n ih =>
      have hlevel : 3 ≤ (sumOfOnes n).level := by
        cases n with
        | zero => decide
        | succ => exact Nat.le_refl 3
      refine ⟨.binary rfl ⟨rfl, rfl⟩ hlevel (by decide) ih.wellShaped hone, ?_⟩
      rw [sumOfOnes, nesting]
      exact Nat.max_le.mpr ⟨ih.nesting_le, Nat.zero_le _⟩

/-- No number bounds the height of the trees that sources are parsed to. -/
theorem height_unbounded :
    ¬∃ bound, ∀ (s : Session) (source : String) (e : Expr),
      (s.parse source).1 = some e → e.height ≤ bound := by
  rintro ⟨bound, h⟩
  have hparse := (printable_sumOfOnes bound).readsBack.parse
  have hle := h .fresh _ _ (congrArg Prod.fst hparse)
  rw [height_relined, height_sumOfOnes] at hle
  exact Nat.not_succ_le_self bound hle

/-! ### Everything but chains -/

/-- Each level of nesting leaves room for one right operand of each binding. -/
theorem WellShaped.offLeftHeight_le {e : Expr} (h : e.WellShaped) :
    e.offLeftHeight ≤ 5 * e.nesting + 1 + (5 - e.level) := by
  -- The looser a phrase is, the more right operands may follow each other before the next
  -- level of nesting: `5 - e.level` counts those that are left.
  induction h with
  | literal => exact Nat.le_refl 1
  | @grouping e he ih =>
      have hlevel := he.one_le_level
      rw [offLeftHeight, nesting]
      omega
  | @unary op e _ _ htight _ ih =>
      rw [offLeftHeight, nesting]
      omega
  | @binary n l r op hop _ hleft hright _ _ ihl ihr =>
      have hn := (Kind.binding_bounds hop).2
      have hlevel : (Expr.binary l op r).level = n := by
        rw [level, hop, Option.getD_some]
      rw [hlevel, offLeftHeight, nesting]
      omega

/-- The height of the tree of a source is bounded but for the steps to left operands. -/
theorem height_bounded_off_left {s : Session} {source : String} {e : Expr}
    (h : (s.parse source).1 = some e) :
    e.offLeftHeight ≤ 5 * (nestingLimit + 1) ∧
      e.height ≤ 5 * (nestingLimit + 1) + e.leftSteps := by
  have hprintable := Session.printable_of_parse h
  have hoff : e.offLeftHeight ≤ 5 * (nestingLimit + 1) := by
    have hshape := hprintable.wellShaped.offLeftHeight_le
    have hlevel := hprintable.wellShaped.one_le_level
    have hnesting := hprintable.nesting_le
    omega
  exact ⟨hoff, Nat.le_trans e.height_le (Nat.add_le_add_right hoff _)⟩

/-- Both steps of this chain are to a left operand. -/
theorem height_bounded_off_left_sum :
    (Session.fresh.parse "1 + 1 + 1").1 = some (sumOfOnes 2) ∧
      (sumOfOnes 2).offLeftHeight ≤ 5 * (nestingLimit + 1) ∧
      (sumOfOnes 2).height ≤ 5 * (nestingLimit + 1) + 2 := by
  have hparse : (Session.fresh.parse "1 + 1 + 1").1 = some (sumOfOnes 2) := by
    decide +kernel
  exact ⟨hparse, height_bounded_off_left hparse⟩

end Expr

end LoxCalc
