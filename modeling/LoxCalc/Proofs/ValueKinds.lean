import LoxCalc.Expr.Eval

/-!
# LoxCalc.Proofs.ValueKinds

The kind of a tree's value, told from the tree alone.

`HasKind` gives a tree at most one kind, by rules for literals and operators. The
rules are exact (`eval_kind`): an evaluation that succeeds gives a value of the tree's
kind, a tree with a kind fails on nothing but a division by zero, and a tree without
one always fails. One lemma about a single operator carries each direction.
-/

namespace LoxCalc

/-- The four kinds of values. -/
inductive ValueKind where
  | number
  | string
  | boolean
  | nil
deriving DecidableEq

def Value.kind : Value → ValueKind
  | number _ => .number
  | string _ => .string
  | boolean _ => .boolean
  | nil => .nil

/-! ### The rules -/

/-- The kind that a prefix operator makes of the kind of its operand. -/
inductive Maps : Kind → ValueKind → ValueKind → Prop where
  | negation : Maps .minus .number .number
  | not {a : ValueKind} : Maps .bang a .boolean

/-- The kind that a binary operator makes of the kinds of its operands. -/
inductive Combines : Kind → ValueKind → ValueKind → ValueKind → Prop where
  | sum : Combines .plus .number .number .number
  | concatenation : Combines .plus .string .string .string
  | arithmetic {op : Kind} (mem : op ∈ [.minus, .star, .slash]) :
      Combines op .number .number .number
  | order {op : Kind} (mem : op ∈ [.greater, .greaterEqual, .less, .lessEqual]) :
      Combines op .number .number .boolean
  | equality {op : Kind} {a b : ValueKind} (mem : op ∈ [.equalEqual, .bangEqual]) :
      Combines op a b .boolean

/-- The kind of a tree. -/
inductive HasKind : Expr → ValueKind → Prop where
  | literal {v : Value} : HasKind (.literal v) v.kind
  | grouping {e : Expr} {k : ValueKind} (inner : HasKind e k) : HasKind (.grouping e) k
  | unary {op : Token} {e : Expr} {a k : ValueKind} (operand : HasKind e a)
      (maps : Maps op.kind a k) : HasKind (.unary op e) k
  | binary {l r : Expr} {op : Token} {a b k : ValueKind} (left : HasKind l a)
      (right : HasKind r b) (combines : Combines op.kind a b k) : HasKind (.binary l op r) k

theorem Maps.unique {op : Kind} {a k k' : ValueKind} (h : Maps op a k) (h' : Maps op a k') :
    k = k' := by
  cases h <;> cases h' <;> rfl

theorem Combines.unique {op : Kind} {a b k k' : ValueKind} (h : Combines op a b k)
    (h' : Combines op a b k') : k = k' := by
  cases h <;> cases h' <;> grind

theorem HasKind.unique {e : Expr} {k k' : ValueKind} (h : HasKind e k) (h' : HasKind e k') :
    k = k' := by
  induction h generalizing k' with
  | literal => cases h'; rfl
  | grouping _ ih =>
      cases h' with
      | grouping inner => exact ih inner
  | unary _ hmaps ih =>
      cases h' with
      | unary operand hmaps' =>
          obtain rfl := ih operand
          exact hmaps.unique hmaps'
  | binary _ _ hcombines ihl ihr =>
      cases h' with
      | binary left right hcombines' =>
          obtain rfl := ihl left
          obtain rfl := ihr right
          exact hcombines.unique hcombines'

/-! ### One operator -/

theorem Value.kind_eq_number {v : Value} (h : v.kind = .number) : ∃ x, v = .number x := by
  cases v with
  | number x => exact ⟨x, rfl⟩
  | string | boolean | nil => cases h

theorem Value.kind_eq_string {v : Value} (h : v.kind = .string) : ∃ s, v = .string s := by
  cases v with
  | string s => exact ⟨s, rfl⟩
  | number | boolean | nil => cases h

theorem Double.isZero_iff {x : Double} : x.isZero ↔ ∃ negative, x = .signed negative .zero := by
  cases x with
  | nan => simp [isZero]
  | signed negative m => simp [isZero]

theorem applyUnary_kind {op : Token} {x v : Value} (h : applyUnary op x = .ok v) :
    Maps op.kind x.kind v.kind := by
  unfold applyUnary at h
  split at h
  · rename_i hop
    cases x with
    | number x => cases h; rw [hop]; exact .negation
    | string | boolean | nil => cases h
  · rename_i hop
    cases h
    rw [hop]
    exact .not
  · cases h

theorem applyUnary_of_maps {op : Token} {x : Value} {k : ValueKind}
    (h : Maps op.kind x.kind k) : ∃ v, applyUnary op x = .ok v ∧ v.kind = k := by
  unfold applyUnary
  generalize hop : op.kind = kind at h
  generalize ha : x.kind = a at h
  cases h with
  | negation =>
      obtain ⟨x, rfl⟩ := Value.kind_eq_number ha
      exact ⟨_, rfl, rfl⟩
  | not => exact ⟨_, rfl, rfl⟩

/-- An operator on numbers that succeeds had two numbers. -/
theorem onNumbers_eq_ok {op : Token} {x y v : Value} {f : Double → Double → Outcome}
    (h : onNumbers op x y f = .ok v) :
    ∃ a b, x = .number a ∧ y = .number b ∧ f a b = .ok v := by
  unfold onNumbers at h
  split at h
  · rename_i a b
    exact ⟨a, b, rfl, rfl, h⟩
  · cases h

theorem applyBinary_kind {op : Token} {x y v : Value} (h : applyBinary op x y = .ok v) :
    Combines op.kind x.kind y.kind v.kind := by
  unfold applyBinary at h
  cases hop : op.kind <;> simp only [hop] at h <;> try cases h
  case plus =>
    split at h
    · cases h; exact .sum
    · cases h; exact .concatenation
    · cases h
  case slash =>
    obtain ⟨a, b, rfl, rfl, hf⟩ := onNumbers_eq_ok h
    split at hf
    · cases hf
    · cases hf; exact .arithmetic (by decide)
  case minus | star =>
    obtain ⟨a, b, rfl, rfl, hf⟩ := onNumbers_eq_ok h
    cases hf; exact .arithmetic (by decide)
  case greater | greaterEqual | less | lessEqual =>
    obtain ⟨a, b, rfl, rfl, hf⟩ := onNumbers_eq_ok h
    cases hf; exact .order (by decide)
  case equalEqual | bangEqual => exact .equality (by decide)

/-- Operands of the right kinds leave a division by zero as the only fault. -/
theorem applyBinary_of_combines {op : Token} {x y : Value} {k : ValueKind}
    (h : Combines op.kind x.kind y.kind k) :
    (∃ v, applyBinary op x y = .ok v ∧ v.kind = k) ∨
      op.kind = .slash ∧ (∃ negative, y = .number (.signed negative .zero)) ∧
        applyBinary op x y = .error ⟨op, .divisionByZero⟩ := by
  unfold applyBinary
  generalize hop : op.kind = kind at h
  generalize ha : x.kind = a at h
  generalize hb : y.kind = b at h
  cases h with
  | sum =>
      obtain ⟨x, rfl⟩ := Value.kind_eq_number ha
      obtain ⟨y, rfl⟩ := Value.kind_eq_number hb
      exact .inl ⟨_, rfl, rfl⟩
  | concatenation =>
      obtain ⟨x, rfl⟩ := Value.kind_eq_string ha
      obtain ⟨y, rfl⟩ := Value.kind_eq_string hb
      exact .inl ⟨_, rfl, rfl⟩
  | arithmetic hmem =>
      obtain ⟨x, rfl⟩ := Value.kind_eq_number ha
      obtain ⟨y, rfl⟩ := Value.kind_eq_number hb
      simp only [List.mem_cons, List.not_mem_nil, or_false] at hmem
      rcases hmem with rfl | rfl | rfl
      · exact .inl ⟨_, rfl, rfl⟩
      · exact .inl ⟨_, rfl, rfl⟩
      · by_cases hzero : y.isZero
        · obtain ⟨negative, rfl⟩ := Double.isZero_iff.mp hzero
          exact .inr ⟨rfl, ⟨negative, rfl⟩, by simp [onNumbers, hzero]⟩
        · exact .inl ⟨.number (x / y), by simp [onNumbers, hzero], rfl⟩
  | order hmem =>
      obtain ⟨x, rfl⟩ := Value.kind_eq_number ha
      obtain ⟨y, rfl⟩ := Value.kind_eq_number hb
      simp only [List.mem_cons, List.not_mem_nil, or_false] at hmem
      rcases hmem with rfl | rfl | rfl | rfl <;> exact .inl ⟨_, rfl, rfl⟩
  | equality hmem =>
      simp only [List.mem_cons, List.not_mem_nil, or_false] at hmem
      rcases hmem with rfl | rfl <;> exact .inl ⟨_, rfl, rfl⟩

/-! ### Whole trees -/

/-- All the trees in a tree, itself included. -/
def Expr.subtrees : Expr → List Expr
  | .literal v => [.literal v]
  | .grouping e => .grouping e :: e.subtrees
  | .unary op e => .unary op e :: e.subtrees
  | .binary l op r => .binary l op r :: (l.subtrees ++ r.subtrees)

/-- The error is a division by zero: its operator is a division in the tree whose right
operand evaluates to one of the zeros. -/
structure DividesByZero (e : Expr) (error : EvalError) : Prop where
  fault : error.fault = .divisionByZero
  kind : error.operator.kind = .slash
  division : ∃ l r negative, .binary l error.operator r ∈ e.subtrees ∧
    r.eval = .ok (.number (.signed negative .zero))

theorem DividesByZero.mono {e f : Expr} {error : EvalError} (h : DividesByZero e error)
    (hsub : ∀ t ∈ e.subtrees, t ∈ f.subtrees) : DividesByZero f error := by
  obtain ⟨l, r, negative, hmem, heval⟩ := h.division
  exact ⟨h.fault, h.kind, l, r, negative, hsub _ hmem, heval⟩

namespace Expr

/-- What a successful step of an evaluation gives comes from a successful operand. -/
theorem bind_eq_ok {x : Outcome} {f : Value → Outcome} {v : Value} (h : x >>= f = .ok v) :
    ∃ u, x = .ok u ∧ f u = .ok v := by
  cases x with
  | error e => cases h
  | ok u => exact ⟨u, rfl, h⟩

/-- A step of an evaluation fails with its operand, or else by itself. -/
theorem bind_eq_error {x : Outcome} {f : Value → Outcome} {error : EvalError}
    (h : x >>= f = .error error) : x = .error error ∨ ∃ u, x = .ok u ∧ f u = .error error := by
  cases x with
  | error e => exact .inl h
  | ok u => exact .inr ⟨u, rfl, h⟩

theorem hasKind_of_eval {e : Expr} {v : Value} (h : e.eval = .ok v) : HasKind e v.kind := by
  induction e generalizing v with
  | literal w =>
      rw [eval_literal] at h
      cases h
      exact .literal
  | grouping e ih => exact .grouping (ih h)
  | unary op e ih =>
      obtain ⟨x, hx, happly⟩ := bind_eq_ok h
      exact .unary (ih hx) (applyUnary_kind happly)
  | binary l op r ihl ihr =>
      obtain ⟨x, hx, h⟩ := bind_eq_ok h
      obtain ⟨y, hy, happly⟩ := bind_eq_ok h
      exact .binary (ihl hx) (ihr hy) (applyBinary_kind happly)

theorem eval_of_hasKind {e : Expr} {k : ValueKind} (h : HasKind e k) :
    (∃ v, e.eval = .ok v ∧ v.kind = k) ∨
      ∃ error, e.eval = .error error ∧ DividesByZero e error := by
  induction h with
  | @literal v => exact .inl ⟨v, rfl, rfl⟩
  | @grouping e k _ ih =>
      rcases ih with ⟨v, hv, hk⟩ | ⟨error, herror, hzero⟩
      · exact .inl ⟨v, hv, hk⟩
      · exact .inr ⟨error, herror, hzero.mono fun t => List.mem_cons_of_mem _⟩
  | @unary op e a k _ hmaps ih =>
      rcases ih with ⟨x, hx, rfl⟩ | ⟨error, herror, hzero⟩
      · obtain ⟨v, hv, hk⟩ := applyUnary_of_maps hmaps
        exact .inl ⟨v, by rw [eval, hx]; exact hv, hk⟩
      · refine .inr ⟨error, ?_, hzero.mono fun t => List.mem_cons_of_mem _⟩
        rw [eval, herror]
        rfl
  | @binary l r op a b k _ _ hcombines ihl ihr =>
      rcases ihl with ⟨x, hx, rfl⟩ | ⟨error, herror, hzero⟩
      · rcases ihr with ⟨y, hy, rfl⟩ | ⟨error, herror, hzero⟩
        · have heval : (binary l op r).eval = applyBinary op x y := by
            rw [eval, hx, hy]
            rfl
          rcases applyBinary_of_combines hcombines with
            ⟨v, hv, hk⟩ | ⟨hslash, ⟨negative, rfl⟩, herror⟩
          · exact .inl ⟨v, heval.trans hv, hk⟩
          · exact .inr ⟨_, heval.trans herror, rfl, hslash, l, r, negative,
              List.mem_cons_self, hy⟩
        · refine .inr ⟨error, ?_, hzero.mono ?_⟩
          · rw [eval, hx, herror]
            rfl
          · intro t ht
            exact List.mem_cons_of_mem _ (List.mem_append_right _ ht)
      · refine .inr ⟨error, ?_, hzero.mono ?_⟩
        · rw [eval, herror]
          rfl
        · intro t ht
          exact List.mem_cons_of_mem _ (List.mem_append_left _ ht)

/-- A tree has at most one kind. A value has its tree's kind; a tree with a kind gives a
value of it or divides by zero; and a tree without a kind fails. -/
theorem eval_kind (e : Expr) :
    (∀ k k', HasKind e k → HasKind e k' → k = k') ∧
      (∀ v, e.eval = .ok v → HasKind e v.kind) ∧
      (∀ k, HasKind e k → (∃ v, e.eval = .ok v ∧ v.kind = k) ∨
        ∃ error, e.eval = .error error ∧ error.message = "Division by zero." ∧
          DividesByZero e error) ∧
      ((∀ k, ¬HasKind e k) → ∃ error, e.eval = .error error) := by
  refine ⟨fun k k' => HasKind.unique, fun v => hasKind_of_eval, ?_, ?_⟩
  · intro k h
    rcases eval_of_hasKind h with hv | ⟨error, herror, hzero⟩
    · exact .inl hv
    · exact .inr ⟨error, herror, by rw [EvalError.message, hzero.fault], hzero⟩
  · intro h
    cases heval : e.eval with
    | error error => exact ⟨error, rfl⟩
    | ok v => exact absurd (hasKind_of_eval heval) (h v.kind)

end Expr

end LoxCalc
