import LoxCalc.Proofs.Concatenations
import LoxCalc.Proofs.Reparsing
import LoxCalc.Proofs.StageContracts

/-!
# LoxCalc.Proofs.DebugForms

The parenthesised form of a tree says which tree it is.

A value that is no string is written with letters, digits and points only, and no other such
value is written that way (`Value.Bare.text_inj`). So what stands before the first space or
closing parenthesis tells a literal, a grouping and an operator apart
(`DebugHead.Legible.text_inj`), and the operands can be taken off one after the other
(`Expr.Legible.debugText_unique`). Only what follows its first operand tells whether an operator
stands before it or between two of them.

Strings are written without quotes, so trees with strings in them can be written alike.
-/

namespace LoxCalc

/-! ### Texts of values -/

/-- The value can be written, and its text is not just any text. -/
structure Value.Bare (v : Value) : Prop where
  writable : v.Writable
  not_string : ∀ s, v ≠ .string s

/-- The characters that bare values are written with. -/
def isBarePart (c : Char) : Bool := isWordPart c || c == '.'

namespace Expr

/-- The value that a text is read as, if it is that of one literal. -/
def literalOf? (text : String) : Option Value :=
  match Segment.cut text.toList with
  | [s] => (s.token? 1).bind Token.operand?
  | _ => none

theorem literalOf?_literalText {v : Value} (h : v.Writable) :
    literalOf? (literalText v) = some v := by
  obtain ⟨s, hs⟩ := Segment.exists_writes h
  obtain ⟨t, ht, hoperand⟩ := hs.operand 1
  simp only [literalOf?, hs.cut_eq, ht, Option.bind_some, hoperand]

/-- In a source, the text of infinity is an identifier. -/
theorem literalText_ne_inf {v : Value} (h : v.Writable) : literalText v ≠ "inf" := by
  intro htext
  have hword : literalOf? "inf" = none := by
    decide +kernel
  have hread := literalOf?_literalText h
  rw [htext, hword] at hread
  cases hread

end Expr

/-- The value that a text is displayed for: infinity has a word of its own. -/
def Value.ofText? (text : String) : Option Value :=
  if text = "inf" then some (.number (.signed false .infinity)) else Expr.literalOf? text

namespace Value.Bare

variable {v w : Value}

/-- Except for infinity, bare values have their source text for a text. -/
theorem text_eq (h : v.Bare) :
    v.text = Expr.literalText v ∨ v = .number (.signed false .infinity) := by
  cases v with
  | number x =>
      obtain ⟨m, rfl⟩ := h.writable
      by_cases hinf : m.isInfinite
      · rw [beq_iff_eq.mp hinf]
        exact .inr rfl
      · rw [Expr.literalText, if_neg hinf]
        exact .inl rfl
  | string s => exact absurd rfl (h.not_string s)
  | boolean | nil => exact .inl rfl

theorem text_infinity : (number (.signed false .infinity)).text = "inf" := by
  decide +kernel

theorem ofText?_text (h : v.Bare) : ofText? v.text = some v := by
  rcases h.text_eq with htext | rfl
  · rw [htext, ofText?, if_neg (Expr.literalText_ne_inf h.writable),
      Expr.literalOf?_literalText h.writable]
  · rw [text_infinity]
    rfl

/-- The text of a bare value is that of no other. -/
theorem text_inj (hv : v.Bare) (hw : w.Bare) (h : v.text = w.text) : v = w := by
  have hread := hv.ofText?_text
  rw [h, hw.ofText?_text] at hread
  exact (Option.some.inj hread).symm

theorem isBarePart_of_mem (h : v.Bare) : ∀ c ∈ v.text.toList, isBarePart c := by
  rcases h.text_eq with htext | rfl
  · cases v with
    | number x =>
        obtain ⟨m, rfl⟩ := h.writable
        obtain ⟨whole, fraction, hnumber, hfits, -⟩ := Expr.exists_number_text m
        rw [htext, hnumber]
        intro c hc
        rcases Segment.isDigit_of_mem_number (hfits []) c hc with hdigit | rfl
        · simp [isBarePart, isWordPart, hdigit]
        · decide
    | string s => exact absurd rfl (h.not_string s)
    | boolean b => cases b <;> exact List.all_eq_true.mp (by decide)
    | nil => exact List.all_eq_true.mp (by decide)
  · rw [text_infinity]
    exact List.all_eq_true.mp (by decide)

/-- No bare value is written with a parenthesis. -/
theorem text_ne_cons (h : v.Bare) (rest : List Char) : v.text.toList ≠ '(' :: rest := by
  intro htext
  have hmem : '(' ∈ v.text.toList := htext ▸ List.mem_cons_self
  exact absurd (h.isBarePart_of_mem '(' hmem) (by decide)

end Value.Bare

/-! ### Texts of operators -/

/-- The characters that a head is written with: those that end it do not count. -/
def isHeadPart (c : Char) : Bool := c != ' ' && c != ')'

/-- What ends a tree is no part of a head. -/
theorem EndsTree.isHeadPart_eq_false {rest : List Char} (h : EndsTree rest) :
    ∀ c ∈ rest.head?, isHeadPart c = false :=
  h.eq_false rfl rfl

theorem isHeadPart_of_isBarePart {c : Char} (h : isBarePart c) : isHeadPart c := by
  unfold isHeadPart
  rw [Bool.and_eq_true, bne_iff_ne, bne_iff_ne]
  constructor
  · rintro rfl
    exact absurd h (by decide)
  · rintro rfl
    exact absurd h (by decide)

namespace Kind

/-- The operators before an operand and between two of them. -/
def operators : List Kind := unaryOperators ++ binaryOperators

/-- No operator is spelled like a grouping. -/
theorem spelling_operator :
    ∀ k ∈ operators, k.spelling.toList.all isHeadPart ∧ k.spelling ≠ "group" := by
  decide +kernel

theorem spelling_inj :
    ∀ k ∈ operators, ∀ k' ∈ operators, k.spelling = k'.spelling → k = k' := by
  decide +kernel

end Kind

/-! ### Heads -/

/-- What a parenthesised form begins with: a value, or a parenthesis and the name of a grouping or
of an operator. -/
inductive DebugHead where
  | value (v : Value)
  | group
  | operator (k : Kind)

namespace DebugHead

/-- The head as it is written. -/
def text : DebugHead → List Char
  | value v => v.text.toList
  | group => '(' :: "group".toList
  | operator k => '(' :: k.spelling.toList

/-- The value is bare and the operator is one. -/
inductive Legible : DebugHead → Prop where
  | value {v : Value} (bare : v.Bare) : Legible (.value v)
  | group : Legible .group
  | operator {k : Kind} (mem : k ∈ Kind.operators) : Legible (.operator k)

variable {h h' : DebugHead}

theorem Legible.isHeadPart_of_mem (hlegible : h.Legible) : ∀ c ∈ h.text, isHeadPart c := by
  cases hlegible with
  | value hv => exact fun c hc => isHeadPart_of_isBarePart (hv.isBarePart_of_mem c hc)
  | group => exact List.all_eq_true.mp rfl
  | operator hmem =>
      have hparts := List.all_eq_true.mp (Kind.spelling_operator _ hmem).1
      exact List.forall_mem_cons.mpr ⟨rfl, hparts⟩

/-- Heads are told apart by their texts. -/
theorem Legible.text_inj (hlegible : h.Legible) (hlegible' : h'.Legible)
    (htext : h.text = h'.text) : h = h' := by
  cases hlegible with
  | value hv =>
      cases hlegible' with
      | value hv' => rw [hv.text_inj hv' (String.toList_inj.mp htext)]
      | group | operator => exact absurd htext (hv.text_ne_cons _)
  | group =>
      cases hlegible' with
      | value hv' => exact absurd htext.symm (hv'.text_ne_cons _)
      | group => rfl
      | operator hmem' =>
          have hname := String.toList_inj.mp (List.cons.inj htext).2
          exact absurd hname.symm (Kind.spelling_operator _ hmem').2
  | operator hmem =>
      cases hlegible' with
      | value hv' => exact absurd htext.symm (hv'.text_ne_cons _)
      | group =>
          have hname := String.toList_inj.mp (List.cons.inj htext).2
          exact absurd hname (Kind.spelling_operator _ hmem).2
      | operator hmem' =>
          have hname := String.toList_inj.mp (List.cons.inj htext).2
          rw [Kind.spelling_inj _ hmem _ hmem' hname]

end DebugHead

/-! ### Trees -/

/-- The token is an operator and the spelling of its kind. -/
structure Token.IsOperator (t : Token) : Prop extends t.IsSpelled where
  mem : t.kind ∈ Kind.operators

/-- But for its line, an operator is known from its kind. -/
theorem Token.IsOperator.eq_of_kind {op op' : Token} (h : op.IsOperator) (h' : op'.IsOperator)
    (hkind : op.kind = op'.kind) : { op with line := 0 } = { op' with line := 0 } := by
  rw [h.lexeme, h'.lexeme, h.literal, h'.literal, hkind]

namespace Expr

/-- All values in the tree are bare, and its operators are spelled like their kinds. -/
inductive Legible : Expr → Prop where
  | literal {v : Value} (bare : v.Bare) : Legible (.literal v)
  | grouping {e : Expr} (inner : Legible e) : Legible (.grouping e)
  | unary {op : Token} {e : Expr} (operator : op.IsOperator) (operand : Legible e) :
      Legible (.unary op e)
  | binary {op : Token} {l r : Expr} (operator : op.IsOperator) (left : Legible l)
      (right : Legible r) : Legible (.binary l op r)

/-- A well shaped tree without strings is legible. -/
theorem WellShaped.legible {e : Expr} (h : e.WellShaped) (hstrings : e.strings = []) :
    e.Legible := by
  induction h with
  | @literal v writable =>
      refine .literal ⟨writable, ?_⟩
      rintro s rfl
      cases hstrings
  | grouping _ ih => exact .grouping (ih hstrings)
  | unary hprefix hop _ _ ih =>
      have hmem := List.mem_append_left Kind.binaryOperators (Kind.mem_unaryOperators hprefix)
      exact .unary ⟨hop, hmem⟩ (ih hstrings)
  | binary hbinding hop _ _ _ _ ihl ihr =>
      have hmem := List.mem_append_right Kind.unaryOperators (Kind.mem_binaryOperators hbinding)
      obtain ⟨hl, hr⟩ := List.append_eq_nil_iff.mp hstrings
      exact .binary ⟨hop, hmem⟩ (ihl hl) (ihr hr)

/-- The head of the parenthesised form. -/
def debugHead : Expr → DebugHead
  | literal v => .value v
  | grouping _ => .group
  | unary op _ => .operator op.kind
  | binary _ op _ => .operator op.kind

/-- What follows the head: the operands, each behind a space, the closing parenthesis, and some
more text. -/
def debugTail (rest : List Char) : Expr → List Char
  | literal _ => rest
  | grouping e => ' ' :: (e.debugText.toList ++ ')' :: rest)
  | unary _ e => ' ' :: (e.debugText.toList ++ ')' :: rest)
  | binary l _ r => ' ' :: (l.debugText.toList ++ ' ' :: (r.debugText.toList ++ ')' :: rest))

theorem endsTree_debugTail (e : Expr) {rest : List Char} (hrest : EndsTree rest) :
    EndsTree (e.debugTail rest) := by
  cases e with
  | literal => exact hrest
  | grouping | unary | binary => exact endsTree_cons (.inl rfl) _

namespace Legible

variable {e e' : Expr} {rest rest' : List Char}

theorem debugHead (h : e.Legible) : e.debugHead.Legible := by
  cases h with
  | literal hv => exact .value hv
  | grouping => exact .group
  | unary hop | binary hop => exact .operator hop.mem

theorem toList_debugText_append (h : e.Legible) (rest : List Char) :
    e.debugText.toList ++ rest = e.debugHead.text ++ e.debugTail rest := by
  cases h with
  | literal | grouping => simp [debugText, Expr.debugHead, debugTail, DebugHead.text]
  | unary hop | binary hop =>
      simp [debugText, Expr.debugHead, debugTail, DebugHead.text, hop.lexeme]

/-- Two parenthesised forms at the front of the same text have the same head. -/
theorem debugHead_unique (h : e.Legible) (h' : e'.Legible) (hrest : EndsTree rest)
    (hrest' : EndsTree rest')
    (heq : e.debugText.toList ++ rest = e'.debugText.toList ++ rest') :
    e.debugHead = e'.debugHead ∧ e.debugTail rest = e'.debugTail rest' := by
  rw [h.toList_debugText_append, h'.toList_debugText_append] at heq
  have hstop := Segment.takeWhile_append_of_head (e.debugTail rest)
    h.debugHead.isHeadPart_of_mem (e.endsTree_debugTail hrest).isHeadPart_eq_false
  have hstop' := Segment.takeWhile_append_of_head (e'.debugTail rest')
    h'.debugHead.isHeadPart_of_mem (e'.endsTree_debugTail hrest').isHeadPart_eq_false
  rw [heq] at hstop
  have htext := hstop.1.symm.trans hstop'.1
  exact ⟨h.debugHead.text_inj h'.debugHead htext, hstop.2.symm.trans hstop'.2⟩

/-- A parenthesised form at the front of a text can be read in one way only, but for the lines
of operators. -/
theorem debugText_unique (h : e.Legible) (h' : e'.Legible) (hrest : EndsTree rest)
    (hrest' : EndsTree rest')
    (heq : e.debugText.toList ++ rest = e'.debugText.toList ++ rest') :
    e.unlined = e'.unlined ∧ rest = rest' := by
  have hclosing (after : List Char) : EndsTree (')' :: after) := endsTree_cons (.inr rfl) after
  have hspace (after : List Char) : EndsTree (' ' :: after) := endsTree_cons (.inl rfl) after
  -- The rests are generalised, since an operand is followed by what is left of its tree.
  induction h generalizing e' rest rest' with
  | literal hv =>
      obtain ⟨hhead, htail⟩ := (literal hv).debugHead_unique h' hrest hrest' heq
      cases h' with
      | literal =>
          obtain rfl := DebugHead.value.inj hhead
          exact ⟨rfl, htail⟩
      | grouping | unary | binary => cases hhead
  | grouping he ih =>
      obtain ⟨hhead, htail⟩ := (grouping he).debugHead_unique h' hrest hrest' heq
      cases h' with
      | literal | unary | binary => cases hhead
      | grouping he' =>
          obtain ⟨hinner, hafter⟩ := ih he' (hclosing _) (hclosing _) (List.cons.inj htail).2
          exact ⟨by rw [unlined, hinner, unlined], (List.cons.inj hafter).2⟩
  | unary hop he ih =>
      obtain ⟨hhead, htail⟩ := (unary hop he).debugHead_unique h' hrest hrest' heq
      cases h' with
      | literal | grouping => cases hhead
      | unary hop' he' =>
          have hsame := hop.eq_of_kind hop' (DebugHead.operator.inj hhead)
          obtain ⟨hoperand, hafter⟩ := ih he' (hclosing _) (hclosing _) (List.cons.inj htail).2
          exact ⟨by rw [unlined, hoperand, hsame, unlined], (List.cons.inj hafter).2⟩
      | binary _ hl' _ =>
          -- The one operand is followed by a parenthesis, the first of two by a space.
          obtain ⟨-, hafter⟩ := ih hl' (hclosing _) (hspace _) (List.cons.inj htail).2
          exact absurd (List.cons.inj hafter).1 (by decide)
  | binary hop hl hr ihl ihr =>
      obtain ⟨hhead, htail⟩ := (binary hop hl hr).debugHead_unique h' hrest hrest' heq
      cases h' with
      | literal | grouping => cases hhead
      | unary _ he' =>
          obtain ⟨-, hafter⟩ := ihl he' (hspace _) (hclosing _) (List.cons.inj htail).2
          exact absurd (List.cons.inj hafter).1 (by decide)
      | binary hop' hl' hr' =>
          have hsame := hop.eq_of_kind hop' (DebugHead.operator.inj hhead)
          obtain ⟨hleft, hafter⟩ := ihl hl' (hspace _) (hspace _) (List.cons.inj htail).2
          obtain ⟨hright, hafter⟩ := ihr hr' (hclosing _) (hclosing _) (List.cons.inj hafter).2
          exact ⟨by rw [unlined, hleft, hright, hsame, unlined], (List.cons.inj hafter).2⟩

end Legible

/-! ### Trees of sources -/

/-- Two trees that sources are parsed to, without strings in them, have the same parenthesised
form just if they are the same tree, but for the lines of operators. -/
theorem debugText_eq_iff {s s' : Session} {source source' : String} {e e' : Expr}
    (h : (s.parse source).1 = some e) (h' : (s'.parse source').1 = some e')
    (hstrings : e.strings = []) (hstrings' : e'.strings = []) :
    e.debugText = e'.debugText ↔ e.unlined = e'.unlined := by
  constructor
  · intro htext
    have hlegible := (Session.printable_of_parse h).wellShaped.legible hstrings
    have hlegible' := (Session.printable_of_parse h').wellShaped.legible hstrings'
    exact (hlegible.debugText_unique hlegible' endsTree_nil endsTree_nil (by rw [htext])).1
  · intro hsame
    rw [← debugText_unlined, hsame, debugText_unlined]

/-- Digits that do not count and a newline. Of the three operators with the same name, two stand
before their operands. -/
theorem debugText_eq_iff_differences :
    let e (line : Nat) := binary
      (unary ⟨.minus, "-", none, 1⟩ (grouping (literal (.number (.ofDecimal ['1'] ['5'])))))
      ⟨.equalEqual, "==", none, 1⟩
      (binary (unary ⟨.minus, "-", none, line⟩ (literal (.number (.ofDecimal ['2'] []))))
        ⟨.minus, "-", none, line⟩ (literal .nil))
    (Session.fresh.parse "-(1.50) ==\n-2 - nil").1 = some (e 2) ∧
      (Session.fresh.parse "-(01.5) == -2.0-nil").1 = some (e 1) ∧
      (e 2).debugText = "(== (- (group 1.5)) (- (- 2) nil))" ∧
      (e 2).strings = [] ∧ (e 1).strings = [] ∧ (e 2).unlined = (e 1).unlined ∧ e 2 ≠ e 1 := by
  intro e
  have hparse : (Session.fresh.parse "-(1.50) ==\n-2 - nil").1 = some (e 2) := by
    decide +kernel
  have hparse' : (Session.fresh.parse "-(01.5) == -2.0-nil").1 = some (e 1) := by
    decide +kernel
  have htext : (e 2).debugText = (e 1).debugText := by
    decide +kernel
  refine ⟨hparse, hparse', by decide +kernel, rfl, rfl, ?_, by decide +kernel⟩
  exact (debugText_eq_iff hparse hparse' rfl rfl).mp htext

/-- A string can be written like another value. -/
example : (literal (.string "nil")).debugText = (literal .nil).debugText := rfl

end Expr

end LoxCalc
