import LoxCalc.Proofs.Reparsing
import LoxCalc.Proofs.StageContracts

/-!
# LoxCalc.Proofs.SurvivingTrees

Exactly which trees come back when their source text is read.

`Expr.ParserShaped` says in terms of the parts of a tree, and of the paths from its root to its
literals, what `Expr.Printable` says by recursion (`Expr.parserShaped_iff_printable`). That a
printable tree comes back is `Expr.Printable.readsBack`. Conversely, what comes back has been
parsed, so it is printable (`Session.printable_of_parse`), and the lines of operators have no
part in that (`Expr.printable_unlined`).
-/

namespace LoxCalc

/-! ### Operators at their place -/

theorem Kind.isPrefixOperator_of_mem {k : Kind} (h : k ∈ unaryOperators) :
    k.isPrefixOperator := by
  revert k
  decide

theorem Kind.exists_binding_of_mem {k : Kind} (h : k ∈ binaryOperators) :
    ∃ n, k.binding? = some n := by
  have hsome : ∀ k ∈ binaryOperators, k.binding?.isSome := by decide
  exact Option.isSome_iff_exists.mp (hsome k h)

/-- A grouping or a prefix operator is a level of nesting. -/
def Node.opensLevel : Node → Bool
  | grouping | unary _ => true
  | literal _ | binary _ => false

namespace Expr

variable {e t l r : Expr} {op : Token} {n : Nat}

/-- The nodes on each path from the root of a tree to a literal. -/
def paths : Expr → List (List Node)
  | literal v => [[.literal v]]
  | grouping e => e.paths.map (.grouping :: ·)
  | unary op e => e.paths.map (.unary op :: ·)
  | binary l op r => (l.paths ++ r.paths).map (.binary op :: ·)

/-- Precedence and left association put the tree together, each operator is one for its place
and spelled like its kind, and all values can be written. -/
structure Shaped (e : Expr) : Prop where
  left : ∀ l op r, binary l op r ∈ e.subtrees → (binary l op r).level ≤ l.level
  right : ∀ l op r, binary l op r ∈ e.subtrees → (binary l op r).level < r.level
  operand : ∀ op inner, unary op inner ∈ e.subtrees → ∀ l op' r, inner ≠ binary l op' r
  applicable : ∀ node ∈ e.postorder, node.Applicable
  writable : ∀ v, literal v ∈ e.subtrees → v.Writable

/-- The tree is one that a parser makes of some source. -/
structure ParserShaped (e : Expr) : Prop extends Shaped e where
  nesting : ∀ path ∈ e.paths, path.countP Node.opensLevel ≤ nestingLimit

/-! ### Levels of nesting on paths -/

theorem countP_le_nesting {path : List Node} (h : path ∈ e.paths) :
    path.countP Node.opensLevel ≤ e.nesting := by
  induction e generalizing path with
  | literal v =>
      obtain rfl := List.mem_singleton.mp h
      exact Nat.le_refl 0
  | grouping e ih | unary op e ih =>
      obtain ⟨path, hpath, rfl⟩ := List.mem_map.mp h
      rw [List.countP_cons_of_pos rfl]
      exact Nat.succ_le_succ (ih hpath)
  | binary l op r ihl ihr =>
      obtain ⟨path, hpath, rfl⟩ := List.mem_map.mp h
      rw [List.countP_cons_of_neg Bool.false_ne_true]
      rcases List.mem_append.mp hpath with hpath | hpath
      · exact Nat.le_trans (ihl hpath) (Nat.le_max_left _ _)
      · exact Nat.le_trans (ihr hpath) (Nat.le_max_right _ _)

theorem exists_path_nesting (e : Expr) :
    ∃ path ∈ e.paths, path.countP Node.opensLevel = e.nesting := by
  induction e with
  | literal v => exact ⟨_, List.mem_singleton_self _, rfl⟩
  | grouping e ih | unary op e ih =>
      obtain ⟨path, hpath, hcount⟩ := ih
      refine ⟨_, List.mem_map_of_mem hpath, ?_⟩
      rw [List.countP_cons_of_pos rfl, hcount, Expr.nesting]
  | binary l op r ihl ihr =>
      obtain ⟨left, hleft, hcountl⟩ := ihl
      obtain ⟨right, hright, hcountr⟩ := ihr
      rw [Expr.nesting]
      rcases Nat.le_total l.nesting r.nesting with hle | hle
      · refine ⟨_, List.mem_map_of_mem (List.mem_append_right _ hright), ?_⟩
        rw [List.countP_cons_of_neg Bool.false_ne_true, hcountr, Nat.max_eq_right hle]
      · refine ⟨_, List.mem_map_of_mem (List.mem_append_left _ hleft), ?_⟩
        rw [List.countP_cons_of_neg Bool.false_ne_true, hcountl, Nat.max_eq_left hle]

theorem nesting_le_iff :
    e.nesting ≤ n ↔ ∀ path ∈ e.paths, path.countP Node.opensLevel ≤ n := by
  constructor
  · intro h path hpath
    exact Nat.le_trans (countP_le_nesting hpath) h
  · intro h
    obtain ⟨path, hpath, hcount⟩ := exists_path_nesting e
    exact hcount ▸ h path hpath

/-! ### Shapes by parts and by recursion -/

/-- Only operations between two operands hold together less tightly than a prefix operator. -/
theorem five_le_level_iff : 5 ≤ e.level ↔ ∀ l op r, e ≠ binary l op r := by
  constructor
  · rintro h l op r rfl
    rw [level] at h
    cases hbinding : op.kind.binding? with
    | none => simp [hbinding] at h
    | some n =>
        have hbound := (Kind.binding_bounds hbinding).2
        rw [hbinding, Option.getD_some] at h
        omega
  · intro h
    cases e with
    | literal | grouping => exact Nat.le_succ 5
    | unary => exact Nat.le_refl 5
    | binary l op r => exact absurd rfl (h l op r)

theorem WellShaped.of_mem_subtrees (h : e.WellShaped) (ht : t ∈ e.subtrees) : t.WellShaped := by
  induction h with
  | literal hwritable =>
      obtain rfl := List.mem_singleton.mp ht
      exact .literal hwritable
  | grouping hinner ih =>
      rcases List.mem_cons.mp ht with rfl | ht
      · exact .grouping hinner
      · exact ih ht
  | unary hprefix hop htight hinner ih =>
      rcases List.mem_cons.mp ht with rfl | ht
      · exact .unary hprefix hop htight hinner
      · exact ih ht
  | binary hbinding hop hleft hright hl hr ihl ihr =>
      rcases List.mem_cons.mp ht with rfl | ht
      · exact .binary hbinding hop hleft hright hl hr
      · rcases List.mem_append.mp ht with ht | ht
        · exact ihl ht
        · exact ihr ht

theorem WellShaped.shaped (h : e.WellShaped) : e.Shaped where
  left l op r hmem := by
    cases h.of_mem_subtrees hmem with
    | binary hbinding _ hleft _ _ _ => rwa [level, hbinding]
  right l op r hmem := by
    cases h.of_mem_subtrees hmem with
    | binary hbinding _ _ hright _ _ => rwa [level, hbinding]
  operand op inner hmem := by
    cases h.of_mem_subtrees hmem with
    | unary _ _ htight _ => exact five_le_level_iff.mp htight
  applicable := h.applicable
  writable v hmem := by
    cases h.of_mem_subtrees hmem with
    | literal hwritable => exact hwritable

/-- The parts of a tree are shaped like it. -/
theorem Shaped.mono (h : e.Shaped) (hsub : ∀ u ∈ t.subtrees, u ∈ e.subtrees)
    (hnodes : ∀ node ∈ t.postorder, node ∈ e.postorder) : t.Shaped where
  left l op r hmem := h.left l op r (hsub _ hmem)
  right l op r hmem := h.right l op r (hsub _ hmem)
  operand op inner hmem := h.operand op inner (hsub _ hmem)
  applicable node hmem := h.applicable node (hnodes node hmem)
  writable v hmem := h.writable v (hsub _ hmem)

theorem Shaped.wellShaped (h : e.Shaped) : e.WellShaped := by
  induction e with
  | literal v => exact .literal (h.writable v List.mem_cons_self)
  | grouping e ih =>
      have hinner : e.Shaped := h.mono (fun u => List.mem_cons_of_mem _) (by simp +contextual)
      exact .grouping (ih hinner)
  | unary op e ih =>
      have hinner : e.Shaped := h.mono (fun u => List.mem_cons_of_mem _) (by simp +contextual)
      obtain ⟨hkind, hspelled⟩ := h.applicable (.unary op) (by simp)
      have htight := five_le_level_iff.mpr (h.operand op e List.mem_cons_self)
      exact .unary (Kind.isPrefixOperator_of_mem hkind) hspelled htight (ih hinner)
  | binary l op r ihl ihr =>
      have hl : l.Shaped :=
        h.mono (fun u hu => List.mem_cons_of_mem _ (List.mem_append_left _ hu))
          (by simp +contextual)
      have hr : r.Shaped :=
        h.mono (fun u hu => List.mem_cons_of_mem _ (List.mem_append_right _ hu))
          (by simp +contextual)
      obtain ⟨hkind, hspelled⟩ := h.applicable (.binary op) (by simp)
      obtain ⟨n, hbinding⟩ := Kind.exists_binding_of_mem hkind
      have hleft := h.left l op r List.mem_cons_self
      have hright := h.right l op r List.mem_cons_self
      rw [level, hbinding, Option.getD_some] at hleft hright
      exact .binary hbinding hspelled hleft hright (ihl hl) (ihr hr)

theorem parserShaped_iff_printable : e.ParserShaped ↔ e.Printable := by
  constructor
  · intro h
    exact ⟨h.toShaped.wellShaped, nesting_le_iff.mpr h.nesting⟩
  · intro h
    exact ⟨h.wellShaped.shaped, nesting_le_iff.mp h.nesting_le⟩

/-! ### Shapes and lines -/

theorem isSpelled_withLine {line : Nat} :
    Token.IsSpelled { op with line := line } ↔ op.IsSpelled :=
  ⟨fun h => ⟨h.lexeme, h.literal⟩, fun h => ⟨h.lexeme, h.literal⟩⟩

theorem level_unlined (e : Expr) : e.unlined.level = e.level := by
  cases e <;> rfl

theorem WellShaped.unlined (h : e.WellShaped) : e.unlined.WellShaped := by
  induction h with
  | literal hwritable => exact .literal hwritable
  | grouping _ ih => exact .grouping ih
  | unary hprefix hop htight _ ih =>
      rw [← level_unlined] at htight
      exact .unary hprefix (isSpelled_withLine.mpr hop) htight ih
  | binary hbinding hop hleft hright _ _ ihl ihr =>
      rw [← level_unlined] at hleft hright
      exact .binary hbinding (isSpelled_withLine.mpr hop) hleft hright ihl ihr

theorem WellShaped.of_unlined (h : e.unlined.WellShaped) : e.WellShaped := by
  induction e with
  | literal v => exact h
  | grouping e ih =>
      cases h with
      | grouping hinner => exact .grouping (ih hinner)
  | unary op e ih =>
      cases h with
      | unary hprefix hop htight hinner =>
          rw [level_unlined] at htight
          exact .unary hprefix (isSpelled_withLine.mp hop) htight (ih hinner)
  | binary l op r ihl ihr =>
      cases h with
      | binary hbinding hop hleft hright hl hr =>
          rw [level_unlined] at hleft hright
          exact .binary hbinding (isSpelled_withLine.mp hop) hleft hright (ihl hl) (ihr hr)

/-- Whether a tree is printable does not depend on the lines of its operators. -/
theorem printable_unlined : e.unlined.Printable ↔ e.Printable := by
  constructor
  · intro h
    exact ⟨h.wellShaped.of_unlined, nesting_unlined e ▸ h.nesting_le⟩
  · intro h
    exact ⟨h.wellShaped.unlined, (nesting_unlined e).symm ▸ h.nesting_le⟩

/-! ### Reading a written tree again -/

/-- The source text of a tree is parsed without a diagnostic to the same tree, but for the
lines of operators, just if the tree is one that a parser makes. -/
theorem survives_iff_parserShaped (e : Expr) :
    (∃ e', Session.fresh.parse e.sourceText = (some e', .fresh) ∧ e'.unlined = e.unlined) ↔
      e.ParserShaped := by
  rw [parserShaped_iff_printable]
  constructor
  · rintro ⟨e', hparse, hsame⟩
    have hprintable := Session.printable_of_parse (congrArg Prod.fst hparse)
    rwa [← printable_unlined, hsame, printable_unlined] at hprintable
  · intro h
    exact ⟨e.relined 1, h.readsBack.parse, unlined_relined 1 e⟩

end Expr

end LoxCalc
