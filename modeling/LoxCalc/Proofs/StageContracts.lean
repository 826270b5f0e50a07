import LoxCalc.Expr.Postorder
import LoxCalc.Proofs.PrintableTrees
import LoxCalc.Proofs.ReadingProgress
import LoxCalc.Proofs.SourceEndings
import LoxCalc.Proofs.ValueKinds

/-!
# LoxCalc.Proofs.StageContracts

What every stage can rely on from the one before it.

Reading has a fault for a number or string without a value, and evaluation has one for a
token that is no operator. Tokens and trees from elsewhere run into them. A source never
does, whatever else is wrong with it (`Session.stages_keep_contracts`):

* scanning gives numbers and strings their values (`Segment.Fits.valued`), and a value is
  only missing at a token that has none (`State.run_fault`);
* reading puts operators where they can be applied (`Expr.WellShaped.applicable`), and an
  evaluation fails at an operator of the tree that refuses its operands
  (`Expr.exists_refuses`).
-/

namespace LoxCalc

/-! ### Scanning gives values -/

/-- A number or string token has a value of its kind. -/
structure Token.Valued (t : Token) : Prop where
  number : t.kind = .number → ∃ x, t.literal = some (.number x)
  string : t.kind = .string → ∃ text, t.literal = some (.string text)

theorem Token.Valued.of_kind {t : Token} (hnumber : t.kind ≠ .number) (hstring : t.kind ≠ .string) :
    t.Valued :=
  ⟨fun h => absurd h hnumber, fun h => absurd h hstring⟩

theorem Token.Valued.literal_ne_none {t : Token} (h : t.Valued)
    (hkind : t.kind = .number ∨ t.kind = .string) : t.literal ≠ none := by
  rcases hkind with hkind | hkind
  · obtain ⟨x, hx⟩ := h.number hkind
    simp [hx]
  · obtain ⟨text, htext⟩ := h.string hkind
    simp [htext]

theorem Segment.IsKindOf.ne_operand {k : Kind} {word : String} (h : IsKindOf k word) :
    k ≠ .number ∧ k ≠ .string := by
  rcases h with ⟨hmem, -⟩ | ⟨rfl, -⟩
  · revert k
    decide
  · decide

theorem Segment.Fits.valued {s : Segment} {rest : List Char} {line : Nat} {t : Token}
    (h : s.Fits rest) (ht : t ∈ s.token? line) : t.Valued := by
  cases h with
  | blank | comment | unclosed | stray => cases ht
  | @symbol k rest hmem =>
      obtain rfl := Option.some.inj ht
      have hmarks : Kind.number ∉ Kind.marks ∧ Kind.string ∉ Kind.marks := by decide
      exact .of_kind (fun h => hmarks.1 (h ▸ hmem)) fun h => hmarks.2 (h ▸ hmem)
  | word =>
      obtain rfl := Option.some.inj ht
      obtain ⟨hnumber, hstring⟩ := (isKindOf_ofWord _).ne_operand
      exact .of_kind hnumber hstring
  | number =>
      obtain rfl := Option.some.inj ht
      exact ⟨fun _ => ⟨_, rfl⟩, nofun⟩
  | quoted =>
      obtain rfl := Option.some.inj ht
      exact ⟨nofun, fun _ => ⟨_, rfl⟩⟩

theorem valued_of_mem_scan {source : String} {t : Token} (ht : t ∈ (scan source).tokens) :
    t.Valued := by
  rw [scan, Segment.tokens_eq_lexemes, List.mem_append] at ht
  rcases ht with ht | ht
  · obtain ⟨s, rest, line, hfits, ht⟩ := Segment.fits_of_mem_lexemes_cut ht
    exact hfits.valued ht
  · obtain rfl := List.mem_singleton.mp ht
    exact .of_kind (by simp [Token.endOfInput]) (by simp [Token.endOfInput])

/-! ### Reading misses no value -/

/-- A reading fails for one of four reasons, and for a missing value only if one of its
tokens has none. -/
theorem State.run_fault {s : State} {input : List Token} {failure : Failure}
    (h : s.run input = .error failure) :
    failure.fault ∈ [.missingExpression, .unclosedGroup, .tooDeep] ∨
      failure.fault = .missingLiteral ∧
        ∃ t ∈ input, (t.kind = .number ∨ t.kind = .string) ∧ t.literal = none := by
  -- The token that a step fails at is the one without a value. The end of the input is never
  -- asked for one.
  induction input generalizing s with
  | nil =>
      cases s with
      | awaiting stack =>
          cases h
          exact .inl (by decide)
      | holding stack e =>
          simp only [run, finish] at h
          split at h
          · cases h
          · rename_i fault hfinish
            cases h
            split at hfinish
            · cases hfinish
              exact .inl (by decide)
            · cases hfinish
  | cons t input ih =>
      have heffect := s.step_effect t
      cases hstep : s.step t with
      | advance next =>
          rw [run_advance hstep] at h
          rcases ih h with hfault | ⟨hfault, u, hu, hnone⟩
          · exact .inl hfault
          · exact .inr ⟨hfault, u, List.mem_cons_of_mem t hu, hnone⟩
      | complete tree => simp [run, hstep] at h
      | fail fault taken =>
          rw [hstep] at heffect
          simp only [run, hstep, Except.error.injEq] at h
          subst h
          cases heffect with
          | tooDeep | missingExpression | unclosed => exact .inl (by simp)
          | missingLiteral hkind hnone => exact .inr ⟨rfl, t, List.mem_cons_self, hkind, hnone⟩

namespace TokenStream

/-- The tree of a reading is that of a sentence at the front of what is pending. -/
theorem exists_sentence_of_read {s : TokenStream} {e : Expr} (h : s.read.outcome = .ok e) :
    ∃ ts rest, s.pending = ts ++ rest ∧ Sentence ts e := by
  unfold read at h
  split at h
  · rename_i tree rest hread
    cases h
    obtain ⟨ts, hsplit, hsentence, -⟩ := readExpr_eq_ok_iff.mp hread
    exact ⟨ts, rest, hsplit, hsentence⟩
  · cases h

/-- Where every token has its value, a reading fails for one of three reasons. -/
theorem fault_of_read {s : TokenStream} {error : ParseError} (h : s.read.outcome = .error error)
    (hvalued : ∀ t ∈ s.pending, t.Valued) :
    error.fault ∈ [.missingExpression, .unclosedGroup, .tooDeep] := by
  unfold read at h
  split at h
  · cases h
  · rename_i failure hread
    cases h
    rcases State.run_fault hread with hfault | ⟨-, t, ht, hkind, hnone⟩
    · exact hfault
    · exact absurd hnone ((hvalued t ht).literal_ne_none hkind)

/-- What is pending after any number of readings of a source was scanned. -/
theorem exists_fits_of_mem_pending {source : String} {n : Nat} {t : Token}
    (ht : t ∈ ((ofTokens (scan source).tokens).after n).pending) :
    ∃ (s : Segment) (rest : List Char) (line : Nat), s.Fits rest ∧ t ∈ s.token? line := by
  have hmem := (pending_after_suffix _ n).mem ht
  rw [ofTokens_scan] at hmem
  exact Segment.fits_of_mem_lexemes_cut hmem

/-- All trees that are read from a source are well shaped, after errors too. -/
theorem wellShaped_of_read {source : String} {n : Nat} {e : Expr}
    (h : ((ofTokens (scan source).tokens).after n).read.outcome = .ok e) : e.WellShaped := by
  obtain ⟨ts, rest, hsplit, hsentence⟩ := exists_sentence_of_read h
  refine (hsentence.derives.wellShaped fun t ht => ?_).2
  obtain ⟨s, after, line, hfits, ht⟩ :=
    exists_fits_of_mem_pending (hsplit ▸ List.mem_append_left rest ht)
  exact hfits.genuine ht

end TokenStream

/-! ### Reading puts operators where they can be applied -/

/-- The operators before an operand. -/
def Kind.unaryOperators : List Kind := [bang, minus]

/-- The operators between two operands. -/
def Kind.binaryOperators : List Kind :=
  [bangEqual, equalEqual, greater, greaterEqual, less, lessEqual, minus, plus, slash, star]

/-- The operator of a node is one for its place, and spelled like its kind. -/
def Node.Applicable : Node → Prop
  | literal _ | grouping => True
  | unary op => op.kind ∈ Kind.unaryOperators ∧ op.IsSpelled
  | binary op => op.kind ∈ Kind.binaryOperators ∧ op.IsSpelled

theorem Kind.mem_unaryOperators {k : Kind} (h : k.isPrefixOperator) : k ∈ unaryOperators := by
  cases k <;> first | decide | cases h

theorem Kind.mem_binaryOperators {k : Kind} {n : Nat} (h : k.binding? = some n) :
    k ∈ binaryOperators := by
  cases k <;> first | decide | cases h

theorem Expr.WellShaped.applicable {e : Expr} (h : e.WellShaped) :
    ∀ node ∈ e.postorder, node.Applicable := by
  induction h with
  | literal =>
      intro node hnode
      obtain rfl := List.mem_singleton.mp hnode
      trivial
  | grouping _ ih =>
      intro node hnode
      rw [postorder_grouping, List.mem_append, List.mem_singleton] at hnode
      rcases hnode with hnode | rfl
      · exact ih node hnode
      · trivial
  | @unary op e hprefix hop _ _ ih =>
      intro node hnode
      rw [postorder_unary, List.mem_append, List.mem_singleton] at hnode
      rcases hnode with hnode | rfl
      · exact ih node hnode
      · exact ⟨Kind.mem_unaryOperators hprefix, hop⟩
  | @binary n l r op hbinding hop _ _ _ _ ihl ihr =>
      intro node hnode
      rw [postorder_binary, List.mem_append, List.mem_append, List.mem_singleton] at hnode
      rcases hnode with (hnode | hnode) | rfl
      · exact ihl node hnode
      · exact ihr node hnode
      · exact ⟨Kind.mem_binaryOperators hbinding, hop⟩

/-! ### Evaluation meets no other operators -/

/-- The operator of a node cannot be applied to some operands, with this error. -/
def Node.Refuses (error : EvalError) : Node → Prop
  | literal _ | grouping => False
  | unary op => ∃ x, applyUnary op x = .error error
  | binary op => ∃ x y, applyBinary op x y = .error error

/-- An evaluation that fails does so at an operator of the tree. -/
theorem Expr.exists_refuses {e : Expr} {error : EvalError} (h : e.eval = .error error) :
    ∃ node ∈ e.postorder, node.Refuses error := by
  induction e with
  | literal v => cases h
  | grouping e ih =>
      obtain ⟨node, hnode, hrefuses⟩ := ih h
      exact ⟨node, by simp [hnode], hrefuses⟩
  | unary op e ih =>
      rcases bind_eq_error h with h | ⟨x, -, h⟩
      · obtain ⟨node, hnode, hrefuses⟩ := ih h
        exact ⟨node, by simp [hnode], hrefuses⟩
      · exact ⟨.unary op, by simp, x, h⟩
  | binary l op r ihl ihr =>
      rcases bind_eq_error h with h | ⟨x, -, h⟩
      · obtain ⟨node, hnode, hrefuses⟩ := ihl h
        exact ⟨node, by simp [hnode], hrefuses⟩
      · rcases bind_eq_error h with h | ⟨y, -, h⟩
        · obtain ⟨node, hnode, hrefuses⟩ := ihr h
          exact ⟨node, by simp [hnode], hrefuses⟩
        · exact ⟨.binary op, by simp, x, y, h⟩

/-- The faults of operators at their place. -/
def EvalFault.ofOperands : List EvalFault :=
  [operandNotNumber, operandsNotNumbers, operandsNotAddable, divisionByZero]

theorem onNumbers_eq_error {op : Token} {x y : Value} {f : Double → Double → Outcome}
    {error : EvalError} (h : onNumbers op x y f = .error error) :
    error.fault = .operandsNotNumbers ∨ ∃ a b, f a b = .error error := by
  unfold onNumbers at h
  split at h
  · exact .inr ⟨_, _, h⟩
  · cases h
    exact .inl rfl

theorem applyUnary_fault {op : Token} {x : Value} {error : EvalError}
    (h : applyUnary op x = .error error) (hop : op.kind ∈ Kind.unaryOperators) :
    error.fault ∈ EvalFault.ofOperands := by
  simp only [Kind.unaryOperators, List.mem_cons, List.not_mem_nil, or_false] at hop
  unfold applyUnary at h
  rcases hop with hop | hop <;> simp only [hop] at h
  · cases h
  · split at h
    · cases h
    · cases h
      exact List.mem_cons_self

theorem applyBinary_fault {op : Token} {x y : Value} {error : EvalError}
    (h : applyBinary op x y = .error error) (hop : op.kind ∈ Kind.binaryOperators) :
    error.fault ∈ EvalFault.ofOperands := by
  have hnumbers {f : Double → Double → Outcome} (hf : ∀ a b e, f a b = .error e →
      e.fault = .divisionByZero) (h : onNumbers op x y f = .error error) :
      error.fault ∈ EvalFault.ofOperands := by
    rcases onNumbers_eq_error h with hfault | ⟨a, b, h⟩
    · simp [EvalFault.ofOperands, hfault]
    · simp [EvalFault.ofOperands, hf a b error h]
  unfold applyBinary at h
  cases hkind : op.kind <;> simp only [hkind] at h
  case plus =>
    split at h <;> cases h
    simp [EvalFault.ofOperands]
  case slash =>
    refine hnumbers (fun a b e he => ?_) h
    split at he <;> cases he
    rfl
  case minus | star | greater | greaterEqual | less | lessEqual =>
    exact hnumbers (fun a b e he => by cases he) h
  case equalEqual | bangEqual => cases h
  all_goals exact absurd hop (by rw [hkind]; decide)

theorem Node.Refuses.fault_mem {node : Node} {error : EvalError} (h : node.Refuses error)
    (happlicable : node.Applicable) : error.fault ∈ EvalFault.ofOperands := by
  cases node with
  | literal | grouping => cases h
  | unary op =>
      obtain ⟨x, h⟩ := h
      exact applyUnary_fault h happlicable.1
  | binary op =>
      obtain ⟨x, y, h⟩ := h
      exact applyBinary_fault h happlicable.1

theorem Expr.WellShaped.fault_mem {e : Expr} {error : EvalError} (h : e.WellShaped)
    (herror : e.eval = .error error) : error.fault ∈ EvalFault.ofOperands := by
  obtain ⟨node, hnode, hrefuses⟩ := exists_refuses herror
  exact hrefuses.fault_mem (h.applicable node hnode)

/-! ### What is never told -/

/-- The message is none of those for what an earlier stage has to rule out. -/
structure IsOrdinary (message : String) : Prop where
  ne_missingLiteral : message ≠ "Expect literal value."
  not_notOperator : ¬"Unknown operator".toList <+: message.toList

theorem ScanError.isOrdinary (e : ScanError) : IsOrdinary e.message := by
  cases e with
  | unclosed line =>
      show IsOrdinary "Unterminated string."
      exact ⟨by decide, by decide⟩
  | stray line c =>
      have hmessage : (stray line c).message = "Unexpected character '" ++ (c.toString ++ "'.") :=
        String.append_assoc
      have hprefix : "Unexpected character '".toList <+: (stray line c).message.toList := by
        rw [hmessage, String.toList_append]
        exact List.prefix_append _ _
      refine ⟨fun h => ?_, fun h => ?_⟩
      · rw [h] at hprefix
        exact absurd hprefix (by decide)
      · rcases List.prefix_or_prefix_of_prefix h hprefix with h | h <;> exact absurd h (by decide)

theorem ParseError.isOrdinary {e : ParseError}
    (h : e.fault ∈ [.missingExpression, .unclosedGroup, .tooDeep]) : IsOrdinary e.message := by
  have hfaults : ∀ fault ∈ [ParseFault.missingExpression, .unclosedGroup, .tooDeep],
      fault.message ≠ "Expect literal value." ∧
        ¬"Unknown operator".toList <+: fault.message.toList := by
    decide
  exact ⟨(hfaults _ h).1, (hfaults _ h).2⟩

theorem EvalError.isOrdinary {e : EvalError} (h : e.fault ∈ EvalFault.ofOperands) :
    IsOrdinary e.message := by
  have htexts : ∀ text ∈ ["Operand must be a number.", "Operands must be numbers.",
      "Operands must be two numbers or two strings.", "Division by zero."],
      text ≠ "Expect literal value." ∧ ¬"Unknown operator".toList <+: text.toList := by
    decide
  have hmem : e.message ∈ ["Operand must be a number.", "Operands must be numbers.",
      "Operands must be two numbers or two strings.", "Division by zero."] := by
    simp only [EvalFault.ofOperands, List.mem_cons, List.not_mem_nil, or_false] at h
    rcases h with h | h | h | h <;> simp [message, h]
  exact ⟨(htexts _ hmem).1, (htexts _ hmem).2⟩

theorem TokenStream.isOrdinary_of_read {source : String} {n : Nat} {error : ParseError}
    (h : ((ofTokens (scan source).tokens).after n).read.outcome = .error error) :
    IsOrdinary error.message := by
  refine ParseError.isOrdinary (fault_of_read h fun t ht => ?_)
  obtain ⟨s, rest, line, hfits, ht⟩ := exists_fits_of_mem_pending ht
  exact hfits.valued ht

theorem isOrdinary_of_mem_staticErrors {source : String} {d : Diagnostic}
    (h : d ∈ staticErrors source) : IsOrdinary d.message := by
  rcases mem_staticErrors_iff.mp h with ⟨e, -, rfl⟩ | ⟨e, he, rfl⟩
  · exact e.isOrdinary
  · exact TokenStream.isOrdinary_of_read (n := 0) he

theorem isOrdinary_of_mem_runtimeErrors {source : String} {d : Diagnostic}
    (h : d ∈ runtimeErrors source) : IsOrdinary d.message := by
  obtain ⟨tree, e, htree, heval, rfl⟩ := mem_runtimeErrors_iff.mp h
  rw [← Session.parse_fst .fresh] at htree
  exact EvalError.isOrdinary ((Session.printable_of_parse htree).wellShaped.fault_mem heval)

namespace Session

/-- What a source makes a session record is nothing that an earlier stage has to rule
out. -/
theorem exists_ordinary (source : String) :
    ∃ ran parsed : List Diagnostic,
      (∀ s : Session, (s.run source).2 = s.record ran ∧ (s.parse source).2 = s.record parsed) ∧
        ∀ d ∈ ran ++ parsed, IsOrdinary d.message := by
  refine ⟨_, _, fun s => ⟨s.run_snd source, s.parse_snd source⟩, fun d hd => ?_⟩
  rw [List.mem_append, List.mem_append] at hd
  rcases hd with (hd | hd) | hd
  · exact isOrdinary_of_mem_staticErrors hd
  · exact isOrdinary_of_mem_runtimeErrors hd
  · exact isOrdinary_of_mem_staticErrors hd

/-- Whatever the source and the session, and however often its tokens are read: numbers and
strings have their values, so no reading misses one; the operators of every tree belong to
their places, with the lexemes of their kinds, so no evaluation meets an unknown one; and
what is recorded tells of neither. -/
theorem stages_keep_contracts (s : Session) (source : String) (n : Nat) :
    let tokens := (scan source).tokens
    let attempt := ((TokenStream.ofTokens tokens).after n).read
    (∀ t ∈ tokens, t.Valued) ∧
      (∀ error, attempt.outcome = .error error → error.message ≠ "Expect literal value.") ∧
      (∀ e, attempt.outcome = .ok e ∨ (s.parse source).1 = some e →
        (∀ node ∈ e.postorder, node.Applicable) ∧
          ∀ error, e.eval = .error error →
            ¬"Unknown operator".toList <+: error.message.toList) ∧
      ∃ ran parsed, (s.run source).2 = s.record ran ∧ (s.parse source).2 = s.record parsed ∧
        ∀ d ∈ ran ++ parsed, d.message ≠ "Expect literal value." ∧
          ¬"Unknown operator".toList <+: d.message.toList := by
  intro tokens attempt
  refine ⟨fun t => valued_of_mem_scan, fun error herror => ?_, fun e he => ?_, ?_⟩
  · exact (TokenStream.isOrdinary_of_read herror).ne_missingLiteral
  · have hshape : e.WellShaped := by
      rcases he with he | he
      · exact TokenStream.wellShaped_of_read he
      · exact (printable_of_parse he).wellShaped
    refine ⟨hshape.applicable, fun error herror => ?_⟩
    exact (EvalError.isOrdinary (hshape.fault_mem herror)).not_notOperator
  · obtain ⟨ran, parsed, hrecord, hordinary⟩ := exists_ordinary source
    exact ⟨ran, parsed, (hrecord s).1, (hrecord s).2, fun d hd =>
      ⟨(hordinary d hd).ne_missingLiteral, (hordinary d hd).not_notOperator⟩⟩

end Session

end LoxCalc
