import LoxCalc.Reading.Frame

/-!
# LoxCalc.Proofs.Grammar

The grammar of expressions, apart from how they are read.

`Derives n tokens tree` says that the tokens are a phrase of level `n` with that
tree. The levels are

* 1 to 4 for equality, comparison, addition and multiplication, the bindings of
  `Kind.binding?`;
* 5 for a phrase that begins with a prefix operator; and
* 6 for literals and parentheses.

Every level includes the tighter ones. A `Sentence` is a phrase of level 1 whose tree
keeps to the limit of nesting.
-/

namespace LoxCalc

/-! ### Phrases -/

/-- The value of a token that is an operand by itself. A number or a string is one only
with its literal. -/
def Token.operand? (t : Token) : Option Value :=
  match t.kind with
  | .kwFalse => some (.boolean false)
  | .kwTrue => some (.boolean true)
  | .kwNil => some .nil
  | .number | .string => t.literal
  | _ => none

/-- The phrases of each level, with their trees. -/
inductive Derives : Nat → List Token → Expr → Prop where
  /-- A level includes the next tighter one. -/
  | tighter {n : Nat} {ts : List Token} {e : Expr} (phrase : Derives (n + 1) ts e) :
      Derives n ts e
  /-- A binary operator associates to the left: what is on its right binds tighter. -/
  | binary {n : Nat} {ls rs : List Token} {l r : Expr} {op : Token} (left : Derives n ls l)
      (binding : op.kind.binding? = some n) (right : Derives (n + 1) rs r) :
      Derives n (ls ++ op :: rs) (.binary l op r)
  /-- A prefix operator stands before a phrase of its own level. -/
  | unary {ts : List Token} {e : Expr} {op : Token} (isPrefix : op.kind.isPrefixOperator)
      (operand : Derives 5 ts e) : Derives 5 (op :: ts) (.unary op e)
  /-- Anything may stand in parentheses. -/
  | grouping {ts : List Token} {e : Expr} {opening closing : Token}
      (opens : opening.kind = .leftParen) (inner : Derives 1 ts e)
      (closes : closing.kind = .rightParen) :
      Derives 6 (opening :: (ts ++ [closing])) (.grouping e)
  /-- A literal is a single token. -/
  | literal {t : Token} {v : Value} (operand : t.operand? = some v) : Derives 6 [t] (.literal v)

/-- A phrase of a level is one of every looser level. -/
theorem Derives.of_le {m n : Nat} {ts : List Token} {e : Expr} (h : Derives n ts e)
    (hle : m ≤ n) : Derives m ts e := by
  induction hle with
  | refl => exact h
  | step _ ih => exact ih h.tighter

/-- Binary operators belong to the four loosest levels. -/
theorem Kind.binding_bounds {k : Kind} {n : Nat} (h : k.binding? = some n) :
    1 ≤ n ∧ n ≤ 4 := by
  cases k <;> simp [Kind.binding?] at h <;> subst h <;> decide

/-- The end of the input is no part of a phrase. -/
theorem Derives.kind_ne_eof {n : Nat} {ts : List Token} {e : Expr} (h : Derives n ts e) :
    ∀ t ∈ ts, t.kind ≠ .eof := by
  induction h with
  | tighter _ ih => exact ih
  | @binary n ls rs l r op _ hop _ ihl ihr =>
      have hne : op.kind ≠ .eof := by
        intro h
        simp [h, Kind.binding?] at hop
      intro t ht
      rcases List.mem_append.mp ht with ht | ht
      · exact ihl t ht
      · rcases List.mem_cons.mp ht with rfl | ht
        · exact hne
        · exact ihr t ht
  | @unary ts e op hop _ ih =>
      have hne : op.kind ≠ .eof := by
        intro h
        simp [h, Kind.isPrefixOperator] at hop
      intro t ht
      rcases List.mem_cons.mp ht with rfl | ht
      · exact hne
      · exact ih t ht
  | grouping hopen _ hclose ih =>
      intro t ht
      simp only [List.mem_cons, List.mem_append, List.not_mem_nil, or_false] at ht
      rcases ht with rfl | ht | rfl
      · simp [hopen]
      · exact ih t ht
      · simp [hclose]
  | @literal t v hv =>
      intro u hu h
      obtain rfl := List.mem_singleton.mp hu
      simp [Token.operand?, h] at hv

/-! ### Nesting -/

/-- The most groupings and prefix operators on one path of a tree. -/
def Expr.nesting : Expr → Nat
  | .literal _ => 0
  | .grouping e => e.nesting + 1
  | .unary _ e => e.nesting + 1
  | .binary l _ r => max l.nesting r.nesting

/-- A phrase of the loosest level within the limit of nesting. -/
structure Sentence (tokens : List Token) (tree : Expr) : Prop where
  derives : Derives 1 tokens tree
  nesting_le : tree.nesting ≤ nestingLimit

end LoxCalc
