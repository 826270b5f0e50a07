import LoxCalc.Session
import LoxCalc.Proofs.ScannedTokens
import LoxCalc.Proofs.TokenStreams

/-!
# LoxCalc.Proofs.PrintableTrees

The trees that keep their shape when they are written down as source text.

* `Expr.WellShaped`: precedence and association put the parts of the tree together
  without parentheses, operators are spelled like their kinds, and literals have a
  written form.
* `Expr.Printable`: a well shaped tree within the limit of nesting.

Tokens that scanning gives are `Token.Genuine`, a phrase of genuine tokens has a well
shaped tree (`Derives.wellShaped`), and so every tree that a source is parsed to is
printable (`Session.printable_of_parse`).
-/

namespace LoxCalc

/-! ### Shapes -/

/-- The token is the spelling of its kind and has no value. -/
structure Token.IsSpelled (t : Token) : Prop where
  lexeme : t.lexeme = t.kind.spelling
  literal : t.literal = none

/-- The value can be written as a literal: numbers have no sign, and strings no quote. -/
def Value.Writable : Value → Prop
  | .number x => ∃ m, x = .signed false m
  | .string s => '"' ∉ s.toList
  | .boolean _ | .nil => True

namespace Expr

/-- How tightly a tree holds together: a binary operator as it binds, a prefix operator
tighter than that, and everything else tightest. -/
def level : Expr → Nat
  | literal _ | grouping _ => 6
  | unary _ _ => 5
  | binary _ op _ => op.kind.binding?.getD 0

/-- The tree is shaped by precedence and left association, and its operators and
literals can be written. -/
inductive WellShaped : Expr → Prop where
  | literal {v : Value} (writable : v.Writable) : WellShaped (.literal v)
  | grouping {e : Expr} (inner : WellShaped e) : WellShaped (.grouping e)
  | unary {op : Token} {e : Expr} (isPrefix : op.kind.isPrefixOperator)
      (spelled : op.IsSpelled) (tight : 5 ≤ e.level) (operand : WellShaped e) :
      WellShaped (.unary op e)
  | binary {n : Nat} {l r : Expr} {op : Token} (binding : op.kind.binding? = some n)
      (spelled : op.IsSpelled) (left_tight : n ≤ l.level) (right_tight : n < r.level)
      (left : WellShaped l) (right : WellShaped r) : WellShaped (.binary l op r)

theorem WellShaped.one_le_level {e : Expr} (h : e.WellShaped) : 1 ≤ e.level := by
  cases h with
  | literal | grouping | unary =>
      exact Nat.le_add_left 1 _
  | binary hbinding =>
      rw [level, hbinding]
      exact (Kind.binding_bounds hbinding).1

/-- A well shaped tree within the limit of nesting. -/
structure Printable (e : Expr) : Prop where
  wellShaped : e.WellShaped
  nesting_le : e.nesting ≤ nestingLimit

end Expr

/-! ### Genuine tokens -/

/-- A token that scanning can give: a mark is the spelling of its kind, and the value of
an operand can be written. -/
structure Token.Genuine (t : Token) : Prop where
  spelled : t.kind ∈ Kind.marks → t.IsSpelled
  writable : ∀ v, t.operand? = some v → v.Writable

theorem Kind.mem_marks_of_binding? {k : Kind} {n : Nat} (h : k.binding? = some n) :
    k ∈ marks := by
  cases k <;> first | decide | cases h

theorem Kind.mem_marks_of_isPrefixOperator {k : Kind} (h : k.isPrefixOperator) : k ∈ marks := by
  cases k <;> first | decide | cases h

theorem Kind.not_mem_marks_of_isKindOf {k : Kind} {word : String} (h : Segment.IsKindOf k word) :
    k ∉ marks := by
  rcases h with ⟨hmem, -⟩ | ⟨rfl, -⟩
  · revert k
    decide
  · decide

/-- Of the words, only keywords for values are operands. -/
theorem Token.writable_of_operand? {t : Token} {v : Value} (hliteral : t.literal = none)
    (hv : t.operand? = some v) : v.Writable := by
  unfold operand? at hv
  split at hv
  · obtain rfl := Option.some.inj hv
    trivial
  · obtain rfl := Option.some.inj hv
    trivial
  · obtain rfl := Option.some.inj hv
    trivial
  · rw [hliteral] at hv
    cases hv
  · rw [hliteral] at hv
    cases hv
  · cases hv

theorem Segment.Fits.genuine {s : Segment} {rest : List Char} {line : Nat} {t : Token}
    (h : s.Fits rest) (ht : t ∈ s.token? line) : t.Genuine := by
  cases h with
  | blank | comment | unclosed | stray => cases ht
  | symbol =>
      obtain rfl := Option.some.inj ht
      exact ⟨fun _ => ⟨String.ofList_toList, rfl⟩, fun _ => Token.writable_of_operand? rfl⟩
  | word =>
      obtain rfl := Option.some.inj ht
      refine ⟨?_, fun _ => Token.writable_of_operand? rfl⟩
      intro hmem
      exact absurd hmem (Kind.not_mem_marks_of_isKindOf (isKindOf_ofWord _))
  | number =>
      have hmark : Kind.number ∉ Kind.marks := by decide
      obtain rfl := Option.some.inj ht
      refine ⟨fun hmem => absurd hmem hmark, ?_⟩
      intro v hv
      obtain rfl := Option.some.inj hv
      exact ⟨_, rfl⟩
  | quoted hbody =>
      have hmark : Kind.string ∉ Kind.marks := by decide
      obtain rfl := Option.some.inj ht
      refine ⟨fun hmem => absurd hmem hmark, ?_⟩
      intro v hv
      obtain rfl := Option.some.inj hv
      rw [Value.Writable, String.toList_ofList]
      exact hbody

/-! ### Trees of genuine tokens -/

/-- The tree of a phrase holds together as tightly as the level of the phrase, and is
well shaped if the tokens are genuine. -/
theorem Derives.wellShaped {n : Nat} {ts : List Token} {e : Expr} (h : Derives n ts e)
    (hts : ∀ t ∈ ts, t.Genuine) : n ≤ e.level ∧ e.WellShaped := by
  induction h with
  | tighter _ ih =>
      obtain ⟨hlevel, hshape⟩ := ih hts
      exact ⟨Nat.le_of_succ_le hlevel, hshape⟩
  | @binary n ls rs l r op _ hop _ ihl ihr =>
      obtain ⟨hleft, hl⟩ := ihl fun t ht => hts t (List.mem_append_left _ ht)
      obtain ⟨hright, hr⟩ := ihr fun t ht =>
        hts t (List.mem_append_right _ (List.mem_cons_of_mem op ht))
      have hspelled : op.IsSpelled :=
        (hts op (List.mem_append_right _ List.mem_cons_self)).spelled
          (Kind.mem_marks_of_binding? hop)
      refine ⟨?_, .binary hop hspelled hleft hright hl hr⟩
      rw [Expr.level, hop]
      exact Nat.le_refl n
  | @unary ts e op hop _ ih =>
      obtain ⟨hlevel, hshape⟩ := ih fun t ht => hts t (List.mem_cons_of_mem op ht)
      have hspelled : op.IsSpelled :=
        (hts op List.mem_cons_self).spelled (Kind.mem_marks_of_isPrefixOperator hop)
      exact ⟨Nat.le_refl 5, .unary hop hspelled hlevel hshape⟩
  | @grouping ts e opening closing _ _ _ ih =>
      obtain ⟨-, hshape⟩ := ih fun t ht =>
        hts t (List.mem_cons_of_mem opening (List.mem_append_left _ ht))
      exact ⟨Nat.le_refl 6, .grouping hshape⟩
  | @literal t v hv =>
      exact ⟨Nat.le_refl 6, .literal ((hts t (List.mem_singleton_self t)).writable v hv)⟩

/-! ### What a source is parsed to -/

/-- The stream of a scanned source: everything before the end of the input is pending. -/
theorem ofTokens_scan (source : String) :
    TokenStream.ofTokens (scan source).tokens =
      ⟨0, Segment.lexemes 1 (Segment.cut source.toList), .endOfInput (lineAfter source.toList),
        (Segment.lexemes 1 (Segment.cut source.toList)).length + 1⟩ := by
  have hne : ∀ t ∈ Segment.lexemes 1 (Segment.cut source.toList), t.kind ≠ .eof :=
    fun t => Segment.kind_ne_eof_of_mem_lexemes_cut
  rw [scan, Segment.tokens_eq_lexemes, TokenStream.ofTokens_append_eof hne rfl,
    Segment.newlinesIn, Segment.flatMap_text_cut]
  rfl

theorem read_scan_of_ok {source : String} {e : Expr} {rest : List Token}
    (h : readExpr (Segment.lexemes 1 (Segment.cut source.toList)) = .ok (e, rest)) :
    (TokenStream.ofTokens (scan source).tokens).read =
      ⟨.ok e, [], (TokenStream.ofTokens (scan source).tokens).moveTo rest⟩ := by
  have hpending : (TokenStream.ofTokens (scan source).tokens).pending =
      Segment.lexemes 1 (Segment.cut source.toList) := by
    rw [ofTokens_scan]
  rw [TokenStream.read, hpending, h]

namespace Session

/-- A source has a tree just if its scan has no errors and its tokens begin with an
expression. -/
theorem parse_eq_some_iff {s : Session} {source : String} {e : Expr} :
    (s.parse source).1 = some e ↔
      (scan source).errors = [] ∧
        ∃ rest, readExpr (Segment.lexemes 1 (Segment.cut source.toList)) = .ok (e, rest) := by
  rw [parse_eq]
  cases hread : readExpr (Segment.lexemes 1 (Segment.cut source.toList)) with
  | ok p =>
      obtain ⟨tree, rest⟩ := p
      rw [readSource, read_scan_of_ok hread]
      simp [Reading.accepted?]
  | error failure =>
      rw [readSource, ofTokens_scan, TokenStream.read, hread]
      simp [Reading.accepted?]

/-- Every tree that a source is parsed to is printable. -/
theorem printable_of_parse {s : Session} {source : String} {e : Expr}
    (h : (s.parse source).1 = some e) : e.Printable := by
  obtain ⟨-, rest, hread⟩ := parse_eq_some_iff.mp h
  obtain ⟨ts, hsplit, hsentence, -⟩ := readExpr_eq_ok_iff.mp hread
  have hgenuine : ∀ t ∈ ts, t.Genuine := by
    intro t ht
    have hmem : t ∈ Segment.lexemes 1 (Segment.cut source.toList) :=
      hsplit ▸ List.mem_append_left rest ht
    obtain ⟨s, after, line, hfits, ht⟩ := Segment.fits_of_mem_lexemes_cut hmem
    exact hfits.genuine ht
  exact ⟨(hsentence.derives.wellShaped hgenuine).2, hsentence.nesting_le⟩

end Session

end LoxCalc
