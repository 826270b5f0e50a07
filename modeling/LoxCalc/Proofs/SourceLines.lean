import LoxCalc.Proofs.BlamedTokens
import LoxCalc.Proofs.CursorScans
import LoxCalc.Proofs.PrintableTrees
import LoxCalc.Proofs.SourceEndings
import LoxCalc.Proofs.StackMachine

/-!
# LoxCalc.Proofs.SourceLines

The lines that diagnostics tell are lines of the source.

Scanning counts newlines as it goes along: a token has the line on which its segment ends, an
error that on which its segment begins, so the lines of tokens never decrease
(`Segment.pairwise_line_tokens`). Reading puts tokens into trees as they are, so every node has
a place among them (`Expr.nodePlaces`, `Derives.standAt`). Evaluation fails at the first node in
postorder that it can, and blames the operator there. This one stands in the source as a
segment of its own, on the line that is told (`exists_place_of_failsAt`).
-/

namespace LoxCalc

/-- The segments of a source, each with the text before it. -/
def places (source : String) : List (List Char × Segment) :=
  Segment.located [] (Segment.cut source.toList)

namespace Segment

variable {line : Nat} {s : Segment} {segments : List Segment} {before : List Char} {t : Token}

/-! ### Where segments stand -/

theorem exists_rest_of_mem_located {p : List Char × Segment} (h : p ∈ located before segments) :
    ∃ rest, before ++ segments.flatMap text = p.1 ++ p.2.text ++ rest := by
  induction segments generalizing before with
  | nil => exact absurd h List.not_mem_nil
  | cons s segments ih =>
      rw [List.flatMap_cons, ← List.append_assoc]
      rcases List.mem_cons.mp h with rfl | h
      · exact ⟨segments.flatMap text, rfl⟩
      · exact ih h

/-! ### Lines never decrease -/

theorem line_of_mem_token? (h : t ∈ s.token? line) : t.line = line := by
  cases s <;> cases h <;> rfl

theorem le_line_of_mem_tokens (h : t ∈ tokens line segments) : line ≤ t.line := by
  induction segments generalizing line with
  | nil =>
      obtain rfl := List.mem_singleton.mp h
      exact Nat.le_refl line
  | cons s segments ih =>
      rw [tokens, List.mem_append, Option.mem_toList] at h
      rcases h with h | h
      · rw [line_of_mem_token? h]
        exact Nat.le_add_right line _
      · exact Nat.le_trans (Nat.le_add_right line _) (ih h)

/-- The line of a token is not past that of any later one. -/
theorem pairwise_line_tokens (line : Nat) (segments : List Segment) :
    (tokens line segments).Pairwise fun t u => t.line ≤ u.line := by
  induction segments generalizing line with
  | nil => exact List.pairwise_singleton _ _
  | cons s segments ih =>
      rw [tokens, List.pairwise_append]
      refine ⟨?_, ih _, fun t ht u hu => ?_⟩
      · cases s.token? (line + s.newlines) with
        | none => exact .nil
        | some t => exact List.pairwise_singleton _ _
      · rw [line_of_mem_token? (Option.mem_toList.mp ht)]
        exact le_line_of_mem_tokens hu

theorem line_of_faults {e : ScanError} (h : Faults before s e) : e.line = lineAfter before := by
  cases s with
  | stray | unclosed =>
      obtain ⟨rfl, -⟩ := h
      rfl
  | blank | comment | symbol | number | word | quoted => cases h

/-! ### The place of an operator -/

/-- A token that is spelled like an operator is the token of a mark, which ends no line. -/
theorem Represents.symbol (h : Represents before s t) (hmark : t.kind ∈ Kind.marks) :
    s = .symbol t.kind ∧ t.lexeme = t.kind.spelling ∧ t.line = lineAfter before := by
  obtain ⟨hlexeme, hline, hcontent⟩ := h
  cases s with
  | symbol k =>
      obtain ⟨hkind, -⟩ := hcontent
      subst hkind
      have hnewlines : (Segment.symbol t.kind).text.count '\n' = 0 := newlines_mark _ hmark
      refine ⟨rfl, hlexeme.trans String.ofList_toList, ?_⟩
      rw [hline, lineAfter_append, hnewlines, Nat.add_zero]
  | word =>
      exact absurd hmark (Kind.not_mem_marks_of_isKindOf hcontent.1)
  | number | quoted =>
      rw [hcontent.1] at hmark
      exact absurd hmark (by decide)
  | blank | comment | unclosed | stray => cases hcontent

end Segment

open Segment

theorem getElem?_of_forall₂ {α β : Type} {R : α → β → Prop} {as : List α} {bs : List β} {b : β}
    {k : Nat} (h : List.Forall₂ R as bs) (hb : bs[k]? = some b) :
    ∃ a, as[k]? = some a ∧ R a b := by
  obtain ⟨hlength, hget⟩ := List.forall₂_iff_get.mp h
  obtain ⟨hk, rfl⟩ := List.getElem?_eq_some_iff.mp hb
  exact ⟨_, List.getElem?_eq_getElem (hlength ▸ hk), hget k _ hk⟩

/-- A scanned operator or other mark stands in the source as a segment of its own, in the order
of the tokens and on the line of its token. -/
theorem exists_place_of_mark {source : String} {t : Token} {k : Nat}
    (h : (lexemes 1 (cut source.toList))[k]? = some t) (hmark : t.kind ∈ Kind.marks) :
    ∃ before, ((places source).filter fun p => p.2.isLexeme)[k]? = some (before, .symbol t.kind) ∧
      t.lexeme = t.kind.spelling ∧ t.line = lineAfter before := by
  obtain ⟨⟨before, s⟩, hp, hrepresents⟩ := getElem?_of_forall₂ (represents_lexemes [] _) h
  obtain ⟨rfl, hlexeme, hline⟩ := hrepresents.symbol hmark
  exact ⟨before, hp, hlexeme, hline⟩

/-! ### From tokens to trees and their errors -/

namespace Expr

/-- How many tokens a tree is read from. -/
def width : Expr → Nat
  | literal _ => 1
  | grouping e => e.width + 2
  | unary _ e => e.width + 1
  | binary l _ r => l.width + 1 + r.width

/-- The places of the nodes of a tree, in postorder, among the tokens that it is read from,
which begin at the place `first`. A grouping has that of its opening parenthesis. -/
def nodePlaces (first : Nat) : Expr → List Nat
  | literal _ => [first]
  | grouping e => e.nodePlaces (first + 1) ++ [first]
  | unary _ e => e.nodePlaces (first + 1) ++ [first]
  | binary l _ r =>
    l.nodePlaces first ++ r.nodePlaces (first + l.width + 1) ++ [first + l.width]

end Expr

theorem Derives.length_eq {n : Nat} {ts : List Token} {e : Expr} (h : Derives n ts e) :
    ts.length = e.width := by
  induction h with
  | tighter _ ih => exact ih
  | binary _ _ _ ihl ihr =>
      rw [List.length_append, List.length_cons, ihl, ihr, Expr.width]
      omega
  | unary _ _ ih => rw [List.length_cons, ih, Expr.width]
  | grouping _ _ _ ih =>
      rw [List.length_cons, List.length_append, List.length_singleton, ih, Expr.width]
  | literal => rfl

/-- If the node has an operator, then that is a mark, and the token at the place `k`. -/
def Node.StandsAt (tokens : List Token) (k : Nat) (node : Node) : Prop :=
  ∀ op, node.operator? = some op → tokens[k]? = some op ∧ op.kind ∈ Kind.marks

/-- The nodes of a phrase's tree stand at their places. -/
theorem Derives.standAt {n : Nat} {ts all before after : List Token} {e : Expr}
    (h : Derives n ts e) (hall : all = before ++ ts ++ after) :
    List.Forall₂ (Node.StandsAt all) (e.nodePlaces before.length) e.postorder := by
  -- The tokens of a smaller phrase stand among the same ones, behind more of them.
  induction h generalizing before after with
  | tighter _ ih => exact ih hall
  | @binary n ls rs l r op hphrase hbinding _ ihl ihr =>
      have hleft : all = before ++ ls ++ (op :: rs ++ after) := by simp [hall]
      have hright : all = (before ++ ls ++ [op]) ++ rs ++ after := by simp [hall]
      have hlength : (before ++ ls ++ [op]).length = before.length + l.width + 1 := by
        simp [hphrase.length_eq, Nat.add_assoc]
      have hr := ihr hright
      rw [hlength] at hr
      rw [Expr.postorder_binary, Expr.nodePlaces]
      refine List.rel_append (List.rel_append (ihl hleft) hr) (.cons ?_ .nil)
      rintro _ ⟨⟩
      refine ⟨?_, Kind.mem_marks_of_binding? hbinding⟩
      simp [hall, ← hphrase.length_eq]
  | @unary ts e op hprefix _ ih =>
      have hoperand : all = (before ++ [op]) ++ ts ++ after := by simp [hall]
      have he := ih hoperand
      rw [List.length_append] at he
      rw [Expr.postorder_unary, Expr.nodePlaces]
      refine List.rel_append he (.cons ?_ .nil)
      rintro _ ⟨⟩
      refine ⟨?_, Kind.mem_marks_of_isPrefixOperator hprefix⟩
      simp [hall]
  | @grouping ts e opening closing _ _ _ ih =>
      have hinner : all = (before ++ [opening]) ++ ts ++ (closing :: after) := by simp [hall]
      have he := ih hinner
      rw [List.length_append] at he
      rw [Expr.postorder_grouping, Expr.nodePlaces]
      refine List.rel_append he (.cons ?_ .nil)
      rintro _ ⟨⟩
  | literal =>
      refine .cons ?_ .nil
      rintro _ ⟨⟩

/-- The operator that fails in the tree of a source stands in the source, at the place of the
first node that fails. -/
theorem exists_place_of_failsAt {source : String} {tree t : Expr} {earlier later : List Expr}
    {e : EvalError} (htree : treeOf? source = some tree) (hfails : tree.FailsAt e earlier t later) :
    ∃ k before, (tree.nodePlaces 0)[earlier.length]? = some k ∧
      (scan source).tokens[k]? = some e.operator ∧
      ((places source).filter fun p => p.2.isLexeme)[k]? =
        some (before, .symbol e.operator.kind) ∧
      e.operator.lexeme = e.operator.kind.spelling ∧ e.operator.line = lineAfter before := by
  rw [← Session.parse_fst .fresh] at htree
  obtain ⟨-, rest, hread⟩ := Session.parse_eq_some_iff.mp htree
  obtain ⟨ts, hsplit, hsentence, -⟩ := readExpr_eq_ok_iff.mp hread
  have hall : lexemes 1 (cut source.toList) = [] ++ ts ++ rest := hsplit
  have hnode : tree.postorder[earlier.length]? = some t.root := by
    simp [hfails.postorder_eq]
  obtain ⟨k, hk, hstands⟩ := getElem?_of_forall₂ (hsentence.derives.standAt hall) hnode
  obtain ⟨htoken, hmark⟩ := hstands _ hfails.operator
  obtain ⟨before, hplace, hlexeme, hline⟩ := exists_place_of_mark htoken hmark
  refine ⟨k, before, hk, ?_, hplace, hlexeme, hline⟩
  rw [tokens_scan, List.getElem?_append_left (List.getElem?_eq_some_iff.mp htoken).1, htoken]

/-! ### Diagnostics -/

/-- A diagnostic of a source has the given line for its reason: an error of scanning is about a
segment that begins there, an error of reading about the token there that is the first
impossible one. An error of evaluation is that of the tree, and blames the operator of the first
tree in it that fails: the operator's token has the place of that tree's root, and the segment
of this token, which is a mark and so no part of a string or a comment, stands there. -/
inductive Diagnostic.StandsOn (source : String) : Nat → Diagnostic → Prop where
  | scan {before : List Char} {s : Segment} {e : ScanError} (place : (before, s) ∈ places source)
      (faults : Faults before s e) : StandsOn source (lineAfter before) (.scan e)
  | parse {k : Nat} {e : ParseError} (token : (LoxCalc.scan source).tokens[k]? = some e.token)
      (first : TokenStream.FirstImpossible (LoxCalc.scan source).tokens 0 k) :
      StandsOn source e.token.line (.parse e)
  | runtime {tree t : Expr} {earlier later : List Expr} {k : Nat} {before : List Char}
      {e : EvalError} (tree_eq : treeOf? source = some tree) (eval_eq : tree.eval = .error e)
      (fails : tree.FailsAt e earlier t later)
      (root_place : (tree.nodePlaces 0)[earlier.length]? = some k)
      (token : (LoxCalc.scan source).tokens[k]? = some e.operator)
      (place : ((places source).filter fun p => p.2.isLexeme)[k]? =
        some (before, .symbol e.operator.kind))
      (lexeme : e.operator.lexeme = e.operator.kind.spelling) :
      StandsOn source (lineAfter before) (.runtime e)

theorem closed_scan (source : String) :
    TokenStream.closed (scan source).tokens = (scan source).tokens := by
  rw [tokens_scan]
  simp [TokenStream.closed, Token.endOfInput]

theorem standsOn_of_mem_errors {source : String} {e : ScanError} (h : e ∈ (scan source).errors) :
    Diagnostic.StandsOn source e.line (.scan e) := by
  obtain ⟨k, hk⟩ := List.mem_iff_getElem?.mp h
  obtain ⟨⟨before, s⟩, hp, hfaults⟩ := getElem?_of_forall₂ (faults_errors [] _) hk
  rw [line_of_faults hfaults]
  exact .scan (List.mem_filter.mp (List.mem_of_getElem? hp)).1 hfaults

theorem standsOn_of_read {source : String} {e : ParseError}
    (h : (TokenStream.ofTokens (scan source).tokens).read.outcome = .error e) :
    Diagnostic.StandsOn source e.token.line (.parse e) := by
  obtain ⟨failure, used, rest, hbreaks⟩ := TokenStream.exists_breaks h
  have hcovers := TokenStream.covers_ofTokens (scan source).tokens
  rw [closed_scan] at hcovers
  exact .parse (hbreaks.getElem?_eq hcovers) (hbreaks.firstImpossible hcovers)

theorem standsOn_of_mem_staticErrors {source : String} {d : Diagnostic}
    (h : d ∈ staticErrors source) : d.StandsOn source d.line := by
  rcases mem_staticErrors_iff.mp h with ⟨e, he, rfl⟩ | ⟨e, he, rfl⟩
  · exact standsOn_of_mem_errors he
  · exact standsOn_of_read he

theorem standsOn_of_mem_runtimeErrors {source : String} {d : Diagnostic}
    (h : d ∈ runtimeErrors source) : d.StandsOn source d.line := by
  obtain ⟨tree, e, htree, heval, rfl⟩ := mem_runtimeErrors_iff.mp h
  obtain ⟨earlier, t, later, hfails⟩ := Expr.exists_failsAt heval
  obtain ⟨k, before, hk, htoken, hplace, hlexeme, hline⟩ := exists_place_of_failsAt htree hfails
  show Diagnostic.StandsOn source e.operator.line _
  rw [hline]
  exact .runtime htree heval hfails hk htoken hplace hlexeme

namespace Session

/-- The lines of a source: a token is on the line where its text ends, the end of the input on
the last one, and an error of scanning where its text begins; the lines of tokens never
decrease. These are the lines that a cursor counts. What a run adds to a session are the static
errors or that of evaluation, and each stands on the line that it tells. -/
theorem reported_lines (s : Session) (source : String) :
    let found := staticErrors source ++ runtimeErrors source
    (∀ p ∈ places source, ∃ rest, source.toList = p.1 ++ p.2.text ++ rest) ∧
      (∃ ts, (scan source).tokens = ts ++ [.endOfInput (lineAfter source.toList)] ∧
        List.Forall₂ (fun p t => t.lexeme = .ofList p.2.text ∧ t.line = lineAfter (p.1 ++ p.2.text))
          ((places source).filter fun p => p.2.isLexeme) ts) ∧
      List.Forall₂ (fun p e => Faults p.1 p.2 e ∧ e.line = lineAfter p.1)
        ((places source).filter fun p => p.2.isFault) (scan source).errors ∧
      ((scan source).tokens.Pairwise fun t u => t.line ≤ u.line) ∧
      Cursor.scan? source = some (scan source) ∧
      (s.run source).2 = s.record found ∧ ∀ d ∈ found, d.StandsOn source d.line := by
  intro found
  refine ⟨fun p hp => ?_, ⟨lexemes 1 (cut source.toList), tokens_scan source, ?_⟩, ?_,
    pairwise_line_tokens 1 _, Cursor.scan?_eq source, run_snd s source, fun d hd => ?_⟩
  · obtain ⟨rest, hrest⟩ := exists_rest_of_mem_located hp
    rw [flatMap_text_cut, List.nil_append] at hrest
    exact ⟨rest, hrest⟩
  · exact (represents_lexemes [] _).imp fun p t h => ⟨h.lexeme, h.line⟩
  · exact (faults_errors [] _).imp fun p e h => ⟨h, line_of_faults h⟩
  · rcases List.mem_append.mp hd with hd | hd
    · exact standsOn_of_mem_staticErrors hd
    · exact standsOn_of_mem_runtimeErrors hd

/-- The division on line 3 fails, and the sum on line 1 is not blamed for it. -/
example : (fresh.run "1 +\n2\n/ 0").2.pending.map Diagnostic.line = [3] := by
  decide +kernel

end Session

end LoxCalc
