import LoxCalc.Proofs.Reparsing
import LoxCalc.Proofs.ValueKinds

/-!
# LoxCalc.Proofs.SignedLiterals

Trees with numbers that have a sign, written as source text and read again.

No literal of a source has a sign: what is written for a negative number is read as a prefix
operator before its magnitude. So a tree with such literals does not come back as itself but
with its signs apart (`Expr.signsApart`), one level deeper at each of them. The two trees have
the same text, and the second one is printable where the first is shaped by precedence
(`Expr.SignedShape.printable`).

`Expr.Spells` relates a tree to those that are read from its text. Evaluation cannot tell them
from each other (`Expr.Spells.sameOutcome`): a sign that stands apart never fails, since its
operand is a number, and all other operators agree in what evaluation looks at.
-/

namespace LoxCalc

/-! ### Outcomes -/

/-- The same value, or an error with the same message that is blamed on an operator of the same
kind and lexeme. -/
inductive SameOutcome : Outcome → Outcome → Prop where
  | value (v : Value) : SameOutcome (.ok v) (.ok v)
  | error {e e' : EvalError} (message : e'.message = e.message)
      (kind : e'.operator.kind = e.operator.kind)
      (lexeme : e'.operator.lexeme = e.operator.lexeme) : SameOutcome (.error e) (.error e')

/-- The tokens are the same operator, whatever their literals and lines. -/
structure Token.Agrees (t u : Token) : Prop where
  kind : u.kind = t.kind
  lexeme : u.lexeme = t.lexeme

/-- The token without a value: scanning gives operators none. -/
def Token.withoutLiteral (t : Token) : Token := { t with literal := none }

section Operators

variable {op op' : Token} {x y : Outcome} {f g : Value → Outcome}

theorem SameOutcome.bind (h : SameOutcome x y) (hfg : ∀ v, SameOutcome (f v) (g v)) :
    SameOutcome (x >>= f) (y >>= g) := by
  cases h with
  | value v => exact hfg v
  | error message kind lexeme => exact .error message kind lexeme

/-- The same fault of operators that agree. -/
theorem Token.Agrees.sameError (h : op.Agrees op') (fault : EvalFault) :
    SameOutcome (.error ⟨op, fault⟩) (.error ⟨op', fault⟩) := by
  refine .error ?_ h.kind h.lexeme
  cases fault with
  | notOperator => simp [EvalError.message, h.lexeme]
  | _ => rfl

theorem Token.Agrees.sameOnNumbers (h : op.Agrees op') (v w : Value)
    {f g : Double → Double → Outcome} (hfg : ∀ a b, SameOutcome (f a b) (g a b)) :
    SameOutcome (onNumbers op v w f) (onNumbers op' v w g) := by
  unfold onNumbers
  split
  · exact hfg _ _
  · exact h.sameError _

theorem Token.Agrees.sameUnary (h : op.Agrees op') (v : Value) :
    SameOutcome (applyUnary op v) (applyUnary op' v) := by
  unfold applyUnary
  rw [h.kind]
  cases op.kind with
  | minus =>
      cases v with
      | number x => exact .value _
      | string | boolean | nil => exact h.sameError _
  | bang => exact .value _
  | _ => exact h.sameError _

theorem Token.Agrees.sameBinary (h : op.Agrees op') (v w : Value) :
    SameOutcome (applyBinary op v w) (applyBinary op' v w) := by
  unfold applyBinary
  rw [h.kind]
  cases op.kind with
  | plus =>
      dsimp only
      split
      · exact .value _
      · exact .value _
      · exact h.sameError _
  | slash =>
      refine h.sameOnNumbers v w fun a b => ?_
      split
      · exact h.sameError _
      · exact .value _
  | minus | star | greater | greaterEqual | less | lessEqual =>
      exact h.sameOnNumbers v w fun a b => .value _
  | equalEqual | bangEqual => exact .value _
  | _ => exact h.sameError _

end Operators

/-! ### Shapes -/

/-- The value can be written, a number with its sign: NaN cannot, and no string with a quote
in it. -/
def Value.Expressible : Value → Prop
  | .number x => x ≠ .nan
  | .string s => '"' ∉ s.toList
  | .boolean _ | .nil => True

/-- Is the value a number with its sign bit set? -/
def Value.isSigned : Value → Bool
  | .number (.signed true _) => true
  | _ => false

namespace Expr

/-- The tree is shaped by precedence and left association, each operator is one for its place
and spelled like its kind, and literals can be written, with a sign before negative numbers. -/
inductive SignedShape : Expr → Prop where
  | literal {v : Value} (expressible : v.Expressible) : SignedShape (.literal v)
  | grouping {e : Expr} (inner : SignedShape e) : SignedShape (.grouping e)
  | unary {op : Token} {e : Expr} (isPrefix : op.kind.isPrefixOperator)
      (lexeme : op.lexeme = op.kind.spelling) (tight : 5 ≤ e.level) (operand : SignedShape e) :
      SignedShape (.unary op e)
  | binary {n : Nat} {l r : Expr} {op : Token} (binding : op.kind.binding? = some n)
      (lexeme : op.lexeme = op.kind.spelling) (left_tight : n ≤ l.level)
      (right_tight : n < r.level) (left : SignedShape l) (right : SignedShape r) :
      SignedShape (.binary l op r)

/-- The most groupings, prefix operators and signs of literals on one path of a tree. -/
def signedNesting : Expr → Nat
  | literal v => if v.isSigned then 1 else 0
  | grouping e => e.signedNesting + 1
  | unary _ e => e.signedNesting + 1
  | binary l _ r => max l.signedNesting r.signedNesting

/-! ### Signs apart -/

/-- The sign of a number, read from line 1. -/
def sign : Token := ⟨.minus, "-", none, 1⟩

/-- A literal, with the sign of a number apart. -/
def ofValue : Value → Expr
  | .number (.signed true m) => unary sign (literal (.number (.signed false m)))
  | v => literal v

/-- The tree with the signs of its numbers apart, and its operators without values. -/
def signsApart : Expr → Expr
  | literal v => ofValue v
  | grouping e => grouping e.signsApart
  | unary op e => unary op.withoutLiteral e.signsApart
  | binary l op r => binary l.signsApart op.withoutLiteral r.signsApart

/-- A sign is written before the magnitude, that of infinity too. -/
theorem literalText_signed (m : Magnitude) :
    literalText (.number (.signed true m)) = "-" ++ literalText (.number (.signed false m)) := by
  rw [literalText, literalText]
  split
  · simp
  · rename_i hfinite
    simp [Double.text, Double.render, hfinite]

theorem sourceText_ofValue (v : Value) : (ofValue v).sourceText = literalText v := by
  unfold ofValue
  split
  · rename_i m
    exact (literalText_signed m).symm
  · rfl

/-- Signs that are apart are written as before. -/
theorem sourceText_signsApart (e : Expr) : e.signsApart.sourceText = e.sourceText := by
  induction e with
  | literal v => exact sourceText_ofValue v
  | grouping e ih => rw [signsApart, sourceText, ih, sourceText]
  | unary op e ih => rw [signsApart, sourceText, ih, sourceText, Token.withoutLiteral]
  | binary l op r ihl ihr => rw [signsApart, sourceText, ihl, ihr, sourceText, Token.withoutLiteral]

theorem nesting_signsApart (e : Expr) : e.signsApart.nesting = e.signedNesting := by
  induction e with
  | literal v =>
      rw [signsApart, signedNesting]
      unfold ofValue Value.isSigned
      split <;> rfl
  | grouping e ih => rw [signsApart, nesting, ih, signedNesting]
  | unary op e ih => rw [signsApart, nesting, ih, signedNesting]
  | binary l op r ihl ihr => rw [signsApart, nesting, ihl, ihr, signedNesting]

/-- A literal holds together tighter than a sign and its magnitude, but a sign still holds
together tighter than any operation between two operands. -/
theorem le_level_signsApart {n : Nat} {e : Expr} (hn : n ≤ 5) (h : n ≤ e.level) :
    n ≤ e.signsApart.level := by
  cases e with
  | literal v =>
      rw [signsApart]
      unfold ofValue
      split
      · exact hn
      · exact h
  | grouping | unary | binary => exact h

theorem wellShaped_ofValue {v : Value} (h : v.Expressible) : (ofValue v).WellShaped := by
  unfold ofValue
  split
  · rename_i m
    exact .unary rfl ⟨rfl, rfl⟩ (Nat.le_succ 5) (.literal ⟨m, rfl⟩)
  · rename_i hsigned
    refine .literal ?_
    cases v with
    | number x =>
        cases x with
        | nan => exact absurd rfl h
        | signed negative m =>
            cases negative with
            | true => exact absurd rfl (hsigned m)
            | false => exact ⟨m, rfl⟩
    | string s => exact h
    | boolean | nil => trivial

theorem SignedShape.wellShaped {e : Expr} (h : e.SignedShape) : e.signsApart.WellShaped := by
  induction h with
  | literal hv => exact wellShaped_ofValue hv
  | grouping _ ih => exact .grouping ih
  | unary hprefix hlexeme htight _ ih =>
      exact .unary hprefix ⟨hlexeme, rfl⟩ (le_level_signsApart (Nat.le_refl 5) htight) ih
  | binary hbinding hlexeme hleft hright _ _ ihl ihr =>
      have hn := (Kind.binding_bounds hbinding).2
      exact .binary hbinding ⟨hlexeme, rfl⟩ (le_level_signsApart (by omega) hleft)
        (le_level_signsApart (by omega) hright) ihl ihr

theorem SignedShape.printable {e : Expr} (h : e.SignedShape)
    (hnesting : e.signedNesting ≤ nestingLimit) : e.signsApart.Printable :=
  ⟨h.wellShaped, by rwa [nesting_signsApart]⟩

/-! ### Evaluation -/

/-- The second tree says the same as the first one: it may have signs apart, and its operators
agree with those of the first. -/
inductive Spells : Expr → Expr → Prop where
  | literal (v : Value) : Spells (.literal v) (.literal v)
  | signed (m : Magnitude) {op : Token} (kind : op.kind = .minus) :
      Spells (.literal (.number (.signed true m)))
        (.unary op (.literal (.number (.signed false m))))
  | grouping {e e' : Expr} (inner : Spells e e') : Spells (.grouping e) (.grouping e')
  | unary {op op' : Token} {e e' : Expr} (agrees : op.Agrees op') (operand : Spells e e') :
      Spells (.unary op e) (.unary op' e')
  | binary {op op' : Token} {l l' r r' : Expr} (agrees : op.Agrees op') (left : Spells l l')
      (right : Spells r r') : Spells (.binary l op r) (.binary l' op' r')

theorem spells_ofValue (v : Value) (line : Nat) :
    (literal v).Spells ((ofValue v).relined line) := by
  unfold ofValue
  split
  · rename_i m
    exact .signed m rfl
  · exact .literal v

theorem spells_signsApart (e : Expr) (line : Nat) : e.Spells (e.signsApart.relined line) := by
  induction e generalizing line with
  | literal v => exact spells_ofValue v line
  | grouping e ih => exact .grouping (ih line)
  | unary op e ih => exact .unary ⟨rfl, rfl⟩ (ih line)
  | binary l op r ihl ihr => exact .binary ⟨rfl, rfl⟩ (ihl line) (ihr _)

/-- A sign is applied to a number, so there is nothing that could fail. -/
theorem eval_sign {op : Token} (hop : op.kind = .minus) (m : Magnitude) :
    (unary op (literal (.number (.signed false m)))).eval = .ok (.number (.signed true m)) := by
  show applyUnary op (.number (.signed false m)) = _
  simp only [applyUnary, hop]
  rfl

/-- Evaluation does not tell a tree from one that says the same. -/
theorem Spells.sameOutcome {e e' : Expr} (h : e.Spells e') : SameOutcome e.eval e'.eval := by
  induction h with
  | literal v => exact .value v
  | @signed m op hop =>
      rw [eval_sign hop]
      exact .value _
  | grouping _ ih => exact ih
  | unary hop _ ih => exact ih.bind hop.sameUnary
  | binary hop _ _ ihl ihr => exact ihl.bind fun v => ihr.bind (hop.sameBinary v)

/-- A tree that is shaped by precedence, with any numbers but NaN as its literals, is read from
its own source text without a diagnostic as a tree that evaluates to the same value or fails
with the same message at the same operator. The sign of a literal takes one of the levels of
nesting. -/
theorem signed_literals_keep_meaning {e : Expr} (hshape : e.SignedShape)
    (hnesting : e.signedNesting ≤ nestingLimit) :
    ∃ e', e.ReadsBackAs e' ∧ SameOutcome e.eval e'.eval := by
  have hback := (hshape.printable hnesting).readsBack
  refine ⟨e.signsApart.relined 1, ⟨?_, ?_⟩, (e.spells_signsApart 1).sameOutcome⟩
  · rw [← sourceText_signsApart]
    exact hback.parse
  · rw [← sourceText_signsApart]
    exact hback.complete

/-- Both operands are read as a sign before a magnitude. The zero keeps its sign, and it is the
division that is blamed, with its own lexeme. -/
theorem signed_literals_keep_meaning_quotient :
    let e := binary (literal (.number (.signed true .infinity))) ⟨.slash, "/", some .nil, 7⟩
      (literal (.number (.signed true .zero)))
    e.SignedShape ∧ e.signedNesting = 1 ∧
      ∃ e' error, e.ReadsBackAs e' ∧ e'.eval = .error error ∧
        error.message = "Division by zero." ∧ error.operator.kind = .slash ∧
        error.operator.lexeme = "/" := by
  intro e
  have hshape : e.SignedShape :=
    .binary (n := 4) rfl rfl (by decide) (by decide) (.literal nofun) (.literal nofun)
  obtain ⟨e', hback, hsame⟩ := signed_literals_keep_meaning hshape (by decide)
  have heval : e.eval = .error ⟨⟨.slash, "/", some .nil, 7⟩, .divisionByZero⟩ := by
    decide +kernel
  rw [heval] at hsame
  generalize houtcome : e'.eval = outcome at hsame
  cases hsame with
  | error message kind lexeme =>
      exact ⟨hshape, rfl, e', _, hback, houtcome, message, kind, lexeme⟩

end Expr

end LoxCalc
