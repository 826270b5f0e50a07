import LoxCalc.Proofs.NumberTexts
import LoxCalc.Proofs.OperatorLines
import LoxCalc.Proofs.PrintableTrees

/-!
# LoxCalc.Proofs.Reparsing

Reading the source text of a tree again.

`Expr.segments` are the segments that the text of a well shaped tree is cut into
(`Expr.cut_sourceText`): nothing that is written side by side grows together. Their
tokens are a phrase with the same tree, but for the lines of its operators
(`Expr.derives_segments`), since the only newlines left are those inside of strings.
-/

namespace LoxCalc

/-! ### Values as segments -/

/-- What may follow a written tree: nothing, a space or a closing parenthesis. -/
def EndsTree (rest : List Char) : Prop := ∀ c ∈ rest.head?, c = ' ' ∨ c = ')'

theorem endsTree_nil : EndsTree [] := fun _ hc => nomatch hc

theorem endsTree_cons {c : Char} (hc : c = ' ' ∨ c = ')') (rest : List Char) :
    EndsTree (c :: rest) := by
  rintro d hd
  obtain rfl : c = d := Option.some.inj hd
  exact hc

/-- What ends a tree goes on with no segment of a kind. -/
theorem EndsTree.eq_false {rest : List Char} (h : EndsTree rest) {p : Char → Bool}
    (hspace : p ' ' = false) (hclosing : p ')' = false) : ∀ c ∈ rest.head?, p c = false := by
  intro c hc
  rcases h c hc with rfl | rfl
  · exact hspace
  · exact hclosing

namespace Segment

/-- The segment that a value is written as. -/
structure Writes (s : Segment) (v : Value) : Prop where
  text_eq : (Expr.literalText v).toList = s.text
  stands : ∀ rest, EndsTree rest → s.Stands rest
  not_equals : s.text.head? ≠ some '='
  newlines_eq : s.newlines = v.newlines
  operand : ∀ line, ∃ t, s.token? line = some t ∧ t.operand? = some v

/-- A segment that gives a token stands wherever it fits, when what follows ends a tree. -/
theorem Fits.stands_of_endsTree {s : Segment} {rest rest' : List Char} (h : s.Fits rest)
    (hs : s.isLexeme) (hrest : EndsTree rest') : s.Stands rest' := by
  cases h with
  | blank | comment | unclosed | stray => cases hs
  | symbol mem =>
      exact ⟨.symbol mem, fun _ heq => absurd (hrest '=' heq) (by decide),
        fun _ heq => absurd (hrest '/' heq) (by decide)⟩
  | number some whole_digits fraction_digits =>
      refine ⟨.number some whole_digits fraction_digits, hrest.eq_false rfl rfl, ?_⟩
      intro _ d more hpoint
      subst hpoint
      exact absurd (hrest '.' rfl) (by decide)
  | word first parts => exact ⟨.word first parts, hrest.eq_false rfl rfl⟩
  | quoted unquoted => exact ⟨.quoted unquoted, trivial⟩

theorem writes_number {whole fraction : List Char} {m : Magnitude}
    (htext : (Expr.literalText (.number (.signed false m))).toList =
      (number whole fraction).text)
    (hfits : ∀ rest, (number whole fraction).Fits rest)
    (hvalue : Double.ofDecimal whole fraction = .signed false m) :
    (number whole fraction).Writes (.number (.signed false m)) := by
  have hdigits := isDigit_of_mem_number (hfits [])
  refine ⟨htext, fun rest => (hfits []).stands_of_endsTree rfl, ?_,
    (hfits []).newlines_eq_zero rfl nofun, ?_⟩
  · intro hhead
    exact absurd (hdigits '=' (List.mem_of_head? hhead)) (by decide)
  · intro line
    refine ⟨_, rfl, ?_⟩
    rw [hvalue]
    rfl

theorem writes_quoted {s : String} (h : '"' ∉ s.toList) :
    (quoted s.toList).Writes (.string s) := by
  refine ⟨?_, fun rest _ => ⟨.quoted h, trivial⟩, by simp [text], ?_, ?_⟩
  · simp [Expr.literalText, text]
  · simp [newlines, text, Value.newlines, List.count_append]
  · intro line
    refine ⟨_, rfl, ?_⟩
    rw [String.ofList_toList]
    rfl

theorem writes_word {v : Value} {k : Kind} {c : Char} {letters : List Char}
    (htext : (Expr.literalText v).toList = c :: letters) (hfirst : isLetter c)
    (hparts : letters.all isWordPart) (hkind : Kind.ofWord (.ofList (c :: letters)) = k)
    (hnewlines : v.newlines = 0)
    (hoperand : ∀ lexeme line, Token.operand? ⟨k, lexeme, none, line⟩ = some v) :
    (word (c :: letters)).Writes v := by
  have hparts := List.all_eq_true.mp hparts
  have hall := isWordPart_of_mem_word hfirst hparts
  have hfits : (word (c :: letters)).Fits [] := .word hfirst hparts
  refine ⟨htext, fun rest => hfits.stands_of_endsTree rfl, ?_, ?_, ?_⟩
  · intro hhead
    exact absurd (hall '=' (List.mem_of_head? hhead)) (by decide)
  · rw [hnewlines]
    exact hfits.newlines_eq_zero rfl nofun
  · intro line
    exact ⟨_, rfl, hkind ▸ hoperand _ _⟩

theorem exists_writes {v : Value} (h : v.Writable) : ∃ s : Segment, s.Writes v := by
  cases v with
  | number x =>
      obtain ⟨m, rfl⟩ := h
      obtain ⟨whole, fraction, htext, hfits, hvalue⟩ := Expr.exists_number_text m
      exact ⟨_, writes_number htext hfits hvalue⟩
  | string s => exact ⟨_, writes_quoted h⟩
  | boolean b =>
      cases b with
      | false => exact ⟨_, writes_word rfl rfl rfl rfl rfl fun _ _ => rfl⟩
      | true => exact ⟨_, writes_word rfl rfl rfl rfl rfl fun _ _ => rfl⟩
  | nil => exact ⟨_, writes_word rfl rfl rfl rfl rfl fun _ _ => rfl⟩

theorem Writes.cut_eq {s : Segment} {v : Value} (h : s.Writes v) :
    cut (Expr.literalText v).toList = [s] := by
  have hcut := cut_append (h.stands [] endsTree_nil)
  rwa [List.append_nil, ← h.text_eq, cut_nil] at hcut

theorem cut_mark {k : Kind} {rest : List Char} (hmem : k ∈ Kind.marks)
    (hequal : rest.head? ≠ some '=') (hslash : k = .slash → rest.head? ≠ some '/') :
    cut (k.spelling.toList ++ rest) = symbol k :: cut rest :=
  cut_append ⟨.symbol hmem, fun _ => hequal, hslash⟩

theorem cut_space (rest : List Char) : cut (' ' :: rest) = blank ' ' :: cut rest :=
  cut_append (s := blank ' ') ⟨.blank (by decide), trivial⟩

theorem Writes.error?_eq_none {s : Segment} {v : Value} (h : s.Writes v) (line : Nat) :
    s.error? line = none := by
  obtain ⟨t, ht, -⟩ := h.operand line
  cases s <;> first | rfl | cases ht

theorem newlines_space : (blank ' ').newlines = 0 := rfl

theorem lexemes_operator {op : Token} (hmem : op.kind ∈ Kind.marks) (hop : op.IsSpelled)
    (line : Nat) (rest : List Segment) :
    lexemes line (symbol op.kind :: rest) = { op with line := line } :: lexemes line rest := by
  rw [lexemes, newlines_mark _ hmem, hop.lexeme, hop.literal, token?, text, String.ofList_toList]
  rfl

theorem lexemes_space (line : Nat) (rest : List Segment) :
    lexemes line (blank ' ' :: rest) = lexemes line rest := rfl

end Segment

/-! ### Equality of what can be written -/

/-- Values that can be written equal themselves: NaN is not one of them. -/
theorem Value.Writable.equals_self {v : Value} (h : v.Writable) : v.equals v := by
  cases v with
  | number x =>
      obtain ⟨m, rfl⟩ := h
      simp [Value.equals, Double.equals]
  | string | boolean | nil => simp [Value.equals]

theorem Token.IsSpelled.equals_withLine {op : Token} (h : op.IsSpelled) (line : Nat) :
    op.equals { op with line := line } ↔ op.line = line := by
  simp [Token.equals, h.literal]

/-! ### Trees as segments -/

namespace Expr

/-- The segments that a tree is written as. -/
def segments : Expr → List Segment
  | literal v => Segment.cut (literalText v).toList
  | grouping e => .symbol .leftParen :: (e.segments ++ [.symbol .rightParen])
  | unary op e => .symbol op.kind :: e.segments
  | binary l op r => l.segments ++ .blank ' ' :: .symbol op.kind :: .blank ' ' :: r.segments

theorem toList_sourceText_grouping (e : Expr) :
    (grouping e).sourceText.toList = '(' :: (e.sourceText.toList ++ [')']) := by
  simp [sourceText]

theorem toList_sourceText_unary {op : Token} (hop : op.IsSpelled) (e : Expr) :
    (unary op e).sourceText.toList = op.kind.spelling.toList ++ e.sourceText.toList := by
  simp [sourceText, hop.lexeme]

theorem toList_sourceText_binary {op : Token} (hop : op.IsSpelled) (l r : Expr) :
    (binary l op r).sourceText.toList =
      l.sourceText.toList ++ ' ' :: (op.kind.spelling.toList ++ ' ' :: r.sourceText.toList) := by
  simp [sourceText, hop.lexeme]

/-- No written tree begins with an equals sign, so none goes on with a prefix
operator. -/
theorem head?_sourceText_ne {e : Expr} (h : e.WellShaped) (rest : List Char) :
    (e.sourceText.toList ++ rest).head? ≠ some '=' := by
  induction h generalizing rest with
  | literal hv =>
      obtain ⟨s, hs⟩ := Segment.exists_writes hv
      rw [sourceText, hs.text_eq, List.head?_append_of_ne_nil]
      · exact hs.not_equals
      · exact (hs.stands [] endsTree_nil).fits.text_ne_nil
  | grouping =>
      rw [toList_sourceText_grouping]
      simp
  | @unary op e hprefix hop =>
      rw [toList_sourceText_unary hop, List.append_assoc]
      revert hprefix
      cases op.kind <;> simp [Kind.isPrefixOperator, Kind.spelling, Kind.spelling?]
  | @binary n l r op _ hop _ _ _ _ ihl _ =>
      rw [toList_sourceText_binary hop, List.append_assoc]
      exact ihl _

/-- Written trees are cut into their own segments, whatever follows them. -/
theorem cut_sourceText {e : Expr} (h : e.WellShaped) {rest : List Char}
    (hrest : EndsTree rest) :
    Segment.cut (e.sourceText.toList ++ rest) = e.segments ++ Segment.cut rest := by
  -- The rest is generalised, since an operand is followed by what is written after it.
  induction h generalizing rest with
  | literal hv =>
      obtain ⟨s, hs⟩ := Segment.exists_writes hv
      rw [segments, hs.cut_eq, sourceText, hs.text_eq, Segment.cut_append (hs.stands rest hrest)]
      rfl
  | @grouping e he ih =>
      have hequal : rest.head? ≠ some '=' := fun h => absurd (hrest '=' h) (by decide)
      have hends : EndsTree (Kind.rightParen.spelling.toList ++ rest) :=
        endsTree_cons (.inr rfl) rest
      rw [toList_sourceText_grouping, List.cons_append, List.append_assoc]
      show Segment.cut (Kind.leftParen.spelling.toList ++
        (e.sourceText.toList ++ (Kind.rightParen.spelling.toList ++ rest))) = _
      rw [Segment.cut_mark (k := .leftParen) (by decide) (head?_sourceText_ne he _)
          (fun h => absurd h (by decide)),
        ih hends,
        Segment.cut_mark (k := .rightParen) (by decide) hequal (fun h => absurd h (by decide))]
      simp [segments]
  | @unary op e hprefix hop _ he ih =>
      have hmem := Kind.mem_marks_of_isPrefixOperator hprefix
      rw [toList_sourceText_unary hop, List.append_assoc,
        Segment.cut_mark hmem (head?_sourceText_ne he rest), ih hrest]
      · rfl
      · intro hslash
        rw [hslash] at hprefix
        cases hprefix
  | @binary n l r op hbinding hop _ _ _ _ ihl ihr =>
      have hmem := Kind.mem_marks_of_binding? hbinding
      rw [toList_sourceText_binary hop, segments]
      simp only [List.append_assoc, List.cons_append]
      rw [ihl (endsTree_cons (.inl rfl) _), Segment.cut_space, Segment.cut_mark hmem (by simp)
        (by simp), Segment.cut_space, ihr hrest]

/-- Only strings are written with newlines. -/
theorem newlinesIn_segments {e : Expr} (h : e.WellShaped) :
    Segment.newlinesIn e.segments = newlinesOf e.inorder := by
  induction h with
  | literal hv =>
      obtain ⟨s, hs⟩ := Segment.exists_writes hv
      rw [segments, hs.cut_eq, Segment.newlinesIn_cons, hs.newlines_eq]
      rfl
  | grouping _ ih =>
      rw [segments, Segment.newlinesIn_cons, Segment.newlinesIn_append, ih]
      exact Nat.zero_add _
  | unary hprefix _ _ _ ih =>
      have hmem := Kind.mem_marks_of_isPrefixOperator hprefix
      rw [segments, Segment.newlinesIn_cons, Segment.newlines_mark _ hmem, ih, inorder,
        newlinesOf_inr, Nat.zero_add]
  | binary hbinding _ _ _ _ _ ihl ihr =>
      have hmem := Kind.mem_marks_of_binding? hbinding
      rw [segments, Segment.newlinesIn_append, Segment.newlinesIn_cons, Segment.newlinesIn_cons,
        Segment.newlinesIn_cons, Segment.newlines_mark _ hmem, ihl, ihr, inorder,
        newlinesOf_append, newlinesOf_inr]
      simp [Segment.newlines_space]

theorem errors_segments {e : Expr} (h : e.WellShaped) (line : Nat) :
    Segment.errors line e.segments = [] := by
  induction h generalizing line with
  | literal hv =>
      obtain ⟨s, hs⟩ := Segment.exists_writes hv
      rw [segments, hs.cut_eq, Segment.errors, hs.error?_eq_none]
      rfl
  | grouping _ ih =>
      rw [segments, Segment.errors, Segment.errors_append, ih]
      rfl
  | unary _ _ _ _ ih =>
      rw [segments, Segment.errors, ih]
      rfl
  | binary _ _ _ _ _ _ ihl ihr =>
      rw [segments, Segment.errors_append, ihl]
      simp only [Segment.errors, ihr]
      rfl

/-- The tokens of a written tree are a phrase with that tree, its operators on the lines
where they are written. -/
theorem derives_segments {e : Expr} (h : e.WellShaped) (line : Nat) :
    Derives e.level (Segment.lexemes line e.segments) (e.relined line) := by
  -- The shape is just what makes each operand a phrase of the level its operator asks for.
  induction h generalizing line with
  | literal hv =>
      obtain ⟨s, hs⟩ := Segment.exists_writes hv
      obtain ⟨t, ht, hoperand⟩ := hs.operand (line + s.newlines)
      rw [segments, hs.cut_eq, Segment.lexemes, ht]
      exact .literal hoperand
  | grouping he ih =>
      rw [segments, Segment.lexemes, Segment.lexemes_append]
      exact .grouping rfl ((ih line).of_le he.one_le_level) rfl
  | unary hprefix hop htight _ ih =>
      have hmem := Kind.mem_marks_of_isPrefixOperator hprefix
      rw [segments, Segment.lexemes_operator hmem hop]
      exact .unary hprefix ((ih line).of_le htight)
  | @binary n l r op hbinding hop hleft hright hl hr ihl ihr =>
      have hmem := Kind.mem_marks_of_binding? hbinding
      have hlevel : (binary l op r).level = n := by
        rw [level, hbinding]
        rfl
      rw [segments, Segment.lexemes_append, Segment.lexemes_space,
        Segment.lexemes_operator hmem hop, Segment.lexemes_space, newlinesIn_segments hl, hlevel]
      exact .binary ((ihl line).of_le hleft) hbinding ((ihr _).of_le hright)

/-! ### Equality with a tree that has other lines -/

theorem equals_relined {e : Expr} (h : e.WellShaped) (line : Nat) :
    e.equals (e.relined line) ↔ OnLines line e.inorder := by
  induction h generalizing line with
  | literal hv =>
      simp [relined, equals, inorder, hv.equals_self]
  | grouping _ ih => exact ih line
  | unary _ hop _ _ ih =>
      simp [relined, equals, inorder, hop.equals_withLine, ih]
  | binary _ hop _ _ _ _ ihl ihr =>
      simp [relined, equals, inorder, hop.equals_withLine, ihl, ihr, and_assoc]

/-! ### Reading a written tree again -/

/-- The source text of a tree is read as another tree: without a diagnostic, and with
all its tokens up to the end of the input. -/
structure ReadsBackAs (e e' : Expr) : Prop where
  parse : Session.fresh.parse e.sourceText = (some e', .fresh)
  complete :
    let tokens := (scan e.sourceText).tokens
    let attempt := (TokenStream.ofTokens tokens).read
    attempt.outcome = .ok e' ∧ attempt.stream.pending = [] ∧
      attempt.stream.position + 1 = tokens.length

theorem WellShaped.cut_eq {e : Expr} (h : e.WellShaped) :
    Segment.cut e.sourceText.toList = e.segments := by
  have hcut := cut_sourceText h endsTree_nil
  rwa [Segment.cut_nil, List.append_nil, List.append_nil] at hcut

theorem Printable.readExpr_eq {e : Expr} (h : e.Printable) :
    readExpr (Segment.lexemes 1 (Segment.cut e.sourceText.toList)) =
      .ok (e.relined 1, []) := by
  rw [h.wellShaped.cut_eq]
  have hderives := (derives_segments h.wellShaped 1).of_le h.wellShaped.one_le_level
  have hnesting : (e.relined 1).nesting ≤ nestingLimit := by
    rw [← nesting_unlined, unlined_relined, nesting_unlined]
    exact h.nesting_le
  exact readExpr_eq_ok_iff.mpr
    ⟨_, (List.append_nil _).symm, ⟨hderives, hnesting⟩, fun t ht => nomatch ht⟩

/-- A printable tree is read back with its operators where they are written. -/
theorem Printable.readsBack {e : Expr} (h : e.Printable) : e.ReadsBackAs (e.relined 1) := by
  have hread := h.readExpr_eq
  have herrors : (scan e.sourceText).errors = [] := by
    rw [scan, h.wellShaped.cut_eq]
    exact errors_segments h.wellShaped 1
  have hstream := read_scan_of_ok hread
  refine ⟨?_, ?_⟩
  · rw [Session.parse_eq, readSource, hstream, herrors]
    rfl
  · dsimp only
    rw [hstream, ofTokens_scan, scan, Segment.tokens_eq_lexemes]
    refine ⟨rfl, rfl, ?_⟩
    simp [TokenStream.moveTo]

/-- A tree that a source is parsed to is read back from its own source text as the same
tree, but for the lines of operators: these count the newlines in the strings to the
left. The two trees have the same texts, and they are equal just if the operators were
on these lines before; reading the second tree back gives an equal one. -/
theorem reparse {source : String} {e : Expr}
    (h : (Session.fresh.parse source).1 = some e) :
    ∃ e', e.ReadsBackAs e' ∧ e'.unlined = e.unlined ∧ OnLines 1 e'.inorder ∧
      (e.equals e' ↔ OnLines 1 e.inorder) ∧ e'.debugText = e.debugText ∧
      e'.sourceText = e.sourceText ∧ ∃ e'', e'.ReadsBackAs e'' ∧ e'.equals e'' := by
  have hprintable := Session.printable_of_parse h
  have hback := hprintable.readsBack
  have hunlined := unlined_relined 1 e
  have hlines := onLines_relined 1 e
  refine ⟨e.relined 1, hback, hunlined, hlines, equals_relined hprintable.wellShaped 1, ?_, ?_, ?_⟩
  · rw [← debugText_unlined, hunlined, debugText_unlined]
  · rw [← sourceText_unlined, hunlined, sourceText_unlined]
  · have hagain := Session.printable_of_parse (congrArg Prod.fst hback.parse)
    exact ⟨_, hagain.readsBack, (equals_relined hagain.wellShaped 1).mpr hlines⟩

/-- An operator after a newline that is in no string moves up. -/
theorem reparse_three_lines :
    let e := binary (literal (.string "a\n")) ⟨.equalEqual, "==", none, 2⟩
      (unary ⟨.bang, "!", none, 3⟩ (literal .nil))
    (Session.fresh.parse "\"a\n\" ==\n!nil").1 = some e ∧
      ∃ e', e.ReadsBackAs e' ∧ e'.sourceText = "\"a\n\" == !nil" ∧ ¬e.equals e' := by
  intro e
  have hparse : (Session.fresh.parse "\"a\n\" ==\n!nil").1 = some e := by
    decide +kernel
  obtain ⟨e', hback, -, -, hequals, -, htext, -⟩ := reparse hparse
  refine ⟨hparse, e', hback, htext.trans (by decide +kernel), ?_⟩
  intro h
  have hline := hequals.mp h [.inl (.string "a\n"), .inr ⟨.equalEqual, "==", none, 2⟩]
    ⟨.bang, "!", none, 3⟩ [.inl .nil] rfl
  exact absurd hline (by decide +kernel)

end Expr

end LoxCalc
