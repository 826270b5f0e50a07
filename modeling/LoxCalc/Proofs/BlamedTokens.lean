import LoxCalc.Log
import LoxCalc.Proofs.TokenStreams

/-!
# LoxCalc.Proofs.BlamedTokens

Which token a failed reading blames, and in which words.

A run that fails takes some tokens and fails at the one behind them (`State.exists_failsAt`).

* What has been taken is the beginning of a sentence: every frame that is open can still be
  given what it waits for (`Opens.exists_sentence`).
* With the token that is blamed it is the beginning of none, since a reading does not fail in
  a sentence (`TokenStream.Breaks.not_sentence`).
* The wording tells which frames are open there. `Opens` finds them in the tokens alone, and
  they are those on the stack (`Opens.run_eq`).

So a reading blames the first impossible token (`TokenStream.read_blames`).
-/

namespace LoxCalc

/-! ### Beginnings of sentences -/

section Beginnings

variable {n m : Nat} {tokens more ts us : List Token} {e : Expr} {stack : List Frame} {s : State}

/-- The tokens are the beginning of a sentence, and not the whole of it. -/
def GoesOn (tokens : List Token) : Prop :=
  ∃ more e, more ≠ [] ∧ Sentence (tokens ++ more) e

/-- No sentence is the longest one: a comparison with `nil` may follow it. -/
theorem Sentence.goesOn (h : Sentence (tokens ++ more) e) : GoesOn tokens := by
  have hnil : Derives 2 [⟨.kwNil, "nil", none, 1⟩] (.literal .nil) :=
    Derives.of_le (.literal rfl) (by decide)
  have hop : (⟨.equalEqual, "==", none, 1⟩ : Token).kind.binding? = some 1 := rfl
  have hlonger := Derives.binary h.derives hop hnil
  rw [List.append_assoc] at hlonger
  refine ⟨_, _, ?_, hlonger, ?_⟩
  · simp
  · exact Nat.max_le.mpr ⟨h.nesting_le, Nat.zero_le _⟩

/-- Tokens that leave a stack open go on with a phrase of a level that may come next, up to
the end of a sentence. -/
theorem Opens.exists_sentence (h : Opens n ts stack) (hnm : n ≤ m) (hphrase : Derives m us e)
    (hdepth : Frame.depth stack + e.nesting ≤ nestingLimit) :
    ∃ more tree, Sentence (ts ++ us ++ more) tree := by
  -- Each frame makes the phrase a larger one, which may come next for the frames around it.
  induction h generalizing m us e with
  | start =>
      rw [Frame.depth_nil, Nat.zero_add] at hdepth
      exact ⟨[], e, by simpa using hphrase.of_le hnm, hdepth⟩
  | @unary n ts stack op houter hop _ ih =>
      rw [Frame.depth_unary] at hdepth
      have hwhole := Derives.unary hop (hphrase.of_le hnm)
      obtain ⟨more, tree, hsentence⟩ :=
        ih houter.level_le_five hwhole (by rw [Expr.nesting]; omega)
      exact ⟨more, tree, by simpa using hsentence⟩
  | @group n ts stack opening houter hopens _ ih =>
      rw [Frame.depth_group] at hdepth
      have hcloses : (⟨.rightParen, ")", none, 1⟩ : Token).kind = .rightParen := rfl
      have hwhole := Derives.grouping hopens (hphrase.of_le hnm) hcloses
      have hlevel := houter.level_le_five
      obtain ⟨more, tree, hsentence⟩ := ih (by omega) hwhole (by rw [Expr.nesting]; omega)
      exact ⟨⟨.rightParen, ")", none, 1⟩ :: more, tree, by simpa using hsentence⟩
  | @binary b n ts ls stack l op _ hleft hnb hop hdepthl ih =>
      rw [Frame.depth_binary] at hdepth
      have hwhole := Derives.binary hleft hop (hphrase.of_le hnm)
      obtain ⟨more, tree, hsentence⟩ := ih hnb hwhole (by rw [Expr.nesting]; omega)
      exact ⟨more, tree, by simpa using hsentence⟩

/-- Whatever has been taken can go on. -/
theorem State.Explains.goesOn (h : s.Explains tokens) : GoesOn tokens := by
  cases s with
  | awaiting stack =>
      obtain ⟨n, hopens⟩ := h
      have hlevel := hopens.level_le_five
      have hnil : Derives 6 [⟨.kwNil, "nil", none, 1⟩] (.literal .nil) := .literal rfl
      obtain ⟨more, tree, hsentence⟩ := hopens.exists_sentence (by omega) hnil hopens.depth_le
      rw [List.append_assoc] at hsentence
      exact hsentence.goesOn
  | holding stack tree =>
      obtain ⟨⟨n, ts, us, rfl, hn, hopens, hphrase⟩, hdepth⟩ := h
      obtain ⟨more, tree, hsentence⟩ := hopens.exists_sentence hn hphrase hdepth
      exact hsentence.goesOn

end Beginnings

/-! ### Where a run fails -/

namespace State

/-- A run from `s` takes the tokens and comes to `s'`. -/
structure Takes (s : State) (used : List Token) (s' : State) : Prop where
  run : ∀ more, s.run (used ++ more) = s'.run more
  explains : ∀ tokens, s.Explains tokens → s'.Explains (tokens ++ used)

/-- The state fails at once: at the token to come, or at the end of the tokens. -/
inductive FailsAt (s : State) : List Token → Failure → Prop where
  | token {t : Token} {rest : List Token} {fault : ParseFault} {taken : Bool}
      (step : s.step t = .fail fault taken) :
      FailsAt s (t :: rest) ⟨fault, some t, if taken then rest else t :: rest⟩
  | ending {fault : ParseFault} (finish : s.finish = .error fault) :
      FailsAt s [] ⟨fault, none, []⟩

variable {s s' next : State} {t : Token} {used input : List Token} {failure : Failure}

theorem Takes.refl (s : State) : s.Takes [] s :=
  ⟨fun _ => rfl, fun tokens h => by rwa [List.append_nil]⟩

theorem Takes.cons (hstep : s.step t = .advance next) (h : next.Takes used s') :
    s.Takes (t :: used) s' := by
  refine ⟨fun more => ?_, fun tokens hs => ?_⟩
  · rw [List.cons_append, run_advance hstep, h.run]
  · simpa using h.explains _ (hs.advance hstep)

/-- A run that fails takes some tokens, and fails at the one behind them. -/
theorem exists_failsAt (h : s.run input = .error failure) :
    ∃ used rest s', input = used ++ rest ∧ s.Takes used s' ∧ s'.FailsAt rest failure := by
  induction input generalizing s with
  | nil =>
      refine ⟨[], [], s, rfl, .refl s, ?_⟩
      cases hfinish : s.finish with
      | ok tree => simp [run, hfinish] at h
      | error fault =>
          rw [run, hfinish] at h
          cases h
          exact .ending hfinish
  | cons t input ih =>
      cases hstep : s.step t with
      | advance next =>
          rw [run_advance hstep] at h
          obtain ⟨used, rest, s', rfl, htakes, hfails⟩ := ih h
          exact ⟨t :: used, rest, s', rfl, .cons hstep htakes, hfails⟩
      | complete tree => simp [run, hstep] at h
      | fail fault taken =>
          rw [run, hstep] at h
          cases h
          exact ⟨[], t :: input, s, rfl, .refl s, .token hstep⟩

end State

/-! ### What is wrong with a token -/

/-- Behind the tokens an operand is due, with so many levels of nesting open. -/
def OperandDue (depth : Nat) (tokens : List Token) : Prop :=
  ∃ n stack, Opens n tokens stack ∧ Frame.depth stack = depth

/-- The tokens end with a complete expression, in a grouping that is still open. -/
def GroupDue (tokens : List Token) : Prop := ∃ outer e, Holds 1 tokens (.group :: outer) e

/-- Behind some tokens, another one would open one level of nesting too many. -/
def TooDeep (used : List Token) (t : Token) : Prop :=
  (t.kind.isPrefixOperator ∨ t.kind = .leftParen) ∧ OperandDue nestingLimit used

/-- Behind some tokens, another one lacks the value to be an operand. -/
def LacksLiteral (used : List Token) (t : Token) : Prop :=
  (t.kind = .number ∨ t.kind = .string) ∧ t.literal = none ∧ ∃ depth, OperandDue depth used

/-- The wording of what is wrong with a token behind some others. -/
structure Worded (used : List Token) (t : Token) (message : String) : Prop where
  tooDeep : TooDeep used t → message = "Expression nested too deeply."
  lacksLiteral : LacksLiteral used t → message = "Expect literal value."
  unclosed : GroupDue used → message = "Expect ')' after expression."
  other : ¬TooDeep used t → ¬LacksLiteral used t → ¬GroupDue used →
    message = "Expect expression."

section Wording

variable {n m depth : Nat} {ts used rest : List Token} {t stop : Token} {stack : List Frame}
  {s : State} {failure : Failure}

theorem Opens.awaits (h : Opens n ts stack) (hnm : n ≤ m) : Frame.Awaits m stack := by
  cases h with
  | start | group => trivial
  | unary => exact hnm
  | binary _ _ _ hop _ =>
      rw [Frame.Awaits, hop]
      exact hnm

/-- The frames that some tokens leave open are those on the stack when they are read. -/
theorem Opens.run_eq (h : Opens n ts stack) (more : List Token) :
    readExpr (ts ++ more) = (State.awaiting stack).run more := by
  induction h generalizing more with
  | start => rfl
  | unary _ hop hlt ih =>
      rw [List.append_assoc, ih, List.singleton_append,
        State.run_advance (State.step_unary hop hlt)]
  | group _ hopens hlt ih =>
      rw [List.append_assoc, ih, List.singleton_append,
        State.run_advance (State.step_opening hopens hlt)]
  | @binary b n ts ls stack l op houter hleft hnb hop hdepth ih =>
      have hawaits := houter.awaits hnb
      obtain ⟨stack', e', hrun, hsettle⟩ :=
        State.run_derives hleft stack ([op] ++ more) hawaits hdepth
      have hheld : Frame.settle b stack' e' = (stack, l) := by
        rw [hsettle b (Nat.le_refl b),
          Frame.settle_of_awaits hawaits (Kind.binding_bounds hop).2]
      rw [List.append_assoc, List.append_assoc, ih, hrun, List.singleton_append,
        State.run_advance (State.step_operator hop hheld)]

theorem OperandDue.readExpr_eq (h : OperandDue depth used) :
    readExpr used = .error ⟨.missingExpression, none, []⟩ := by
  obtain ⟨n, stack, hopens, -⟩ := h
  have hrun := hopens.run_eq []
  rwa [List.append_nil] at hrun

theorem GroupDue.readExpr_eq (h : GroupDue used) :
    readExpr used = .error ⟨.unclosedGroup, none, []⟩ := by
  obtain ⟨outer, e, ⟨n, ts, us, rfl, hn, hopens, hphrase⟩, hdepth⟩ := h
  obtain ⟨stack', e', hrun, hsettle⟩ :=
    State.run_derives hphrase (.group :: outer) [] trivial hdepth
  have hheld : Frame.settle 0 stack' e' = (.group :: outer, e) := hsettle 0 (Nat.zero_le 1)
  rw [List.append_nil] at hrun
  rw [hopens.run_eq, hrun]
  simp only [State.run, State.finish, hheld]

/-- Read up to there, the tokens would end with different faults. -/
theorem OperandDue.not_groupDue (h : OperandDue depth used) : ¬GroupDue used := by
  intro hgroup
  have hboth := h.readExpr_eq.symm.trans hgroup.readExpr_eq
  cases hboth

theorem TooDeep.readExpr_eq (h : TooDeep used t) (rest : List Token) :
    readExpr (used ++ t :: rest) = .error ⟨.tooDeep, some t, rest⟩ := by
  obtain ⟨hopener, n, stack, hopens, hdepth⟩ := h
  have hfull : ∀ frame, State.openLevel frame stack = .fail .tooDeep true := by
    intro frame
    rw [State.openLevel, if_neg (by omega)]
  have hstep : (State.awaiting stack).step t = .fail .tooDeep true := by
    rw [State.step, State.stepOperand]
    rcases hopener with hprefix | hgroup
    · cases hk : t.kind <;> simp [hk, Kind.isPrefixOperator] at hprefix <;> exact hfull _
    · rw [hgroup]
      exact hfull _
  rw [hopens.run_eq, State.run, hstep]
  rfl

theorem LacksLiteral.readExpr_eq (h : LacksLiteral used t) (rest : List Token) :
    readExpr (used ++ t :: rest) = .error ⟨.missingLiteral, some t, rest⟩ := by
  obtain ⟨hkind, hnone, depth, n, stack, hopens, -⟩ := h
  have hstep : (State.awaiting stack).step t = .fail .missingLiteral true := by
    rw [State.step, State.stepOperand]
    rcases hkind with hk | hk <;> simp [hk, hnone]
  rw [hopens.run_eq, State.run, hstep]
  rfl

/-- What each fault comes from. -/
theorem State.FailsAt.cause (h : s.FailsAt rest failure) (hexplains : s.Explains used)
    (stop : Token) :
    failure.fault = .tooDeep ∧ TooDeep used (rest.head?.getD stop) ∨
      failure.fault = .missingLiteral ∧ LacksLiteral used (rest.head?.getD stop) ∨
      failure.fault = .unclosedGroup ∧ GroupDue used ∨
      failure.fault = .missingExpression ∧ ∃ depth, OperandDue depth used := by
  cases h with
  | @token t rest fault taken hstep =>
      have heffect := s.step_effect t
      rw [hstep] at heffect
      cases heffect with
      | tooDeep hopener hle =>
          obtain ⟨n, hopens⟩ := hexplains
          have hdepth := Nat.le_antisymm hopens.depth_le hle
          exact .inl ⟨rfl, hopener, n, _, hopens, hdepth⟩
      | missingLiteral hkind hnone =>
          obtain ⟨n, hopens⟩ := hexplains
          exact .inr (.inl ⟨rfl, hkind, hnone, _, n, _, hopens, rfl⟩)
      | missingExpression =>
          obtain ⟨n, hopens⟩ := hexplains
          exact .inr (.inr (.inr ⟨rfl, _, n, _, hopens, rfl⟩))
      | unclosed hop hclose hsettle =>
          rcases Holds.settle_zero hexplains hsettle with ⟨houter, -⟩ | ⟨more, -, hinner⟩
          · cases houter
          · exact .inr (.inr (.inl ⟨rfl, _, _, hinner⟩))
  | @ending fault hfinish =>
      cases s with
      | awaiting stack =>
          cases hfinish
          obtain ⟨n, hopens⟩ := hexplains
          exact .inr (.inr (.inr ⟨rfl, _, n, _, hopens, rfl⟩))
      | holding stack e =>
          rcases hsettle : Frame.settle 0 stack e with ⟨outer, tree⟩
          rcases Holds.settle_zero hexplains hsettle with ⟨rfl, -⟩ | ⟨more, rfl, hinner⟩
          · simp [State.finish, hsettle] at hfinish
          · simp only [State.finish, hsettle, Except.error.injEq] at hfinish
            exact .inr (.inr (.inl ⟨hfinish.symm, _, _, hinner⟩))

/-- The message tells what is wrong with the token, and it can be only one thing. -/
theorem State.FailsAt.worded (h : s.FailsAt rest failure) (hexplains : s.Explains used)
    (hread : readExpr (used ++ rest) = .error failure) (hstop : stop.kind = .eof) :
    Worded used (rest.head?.getD stop) failure.fault.message where
  tooDeep hdeep := by
    cases rest with
    | nil => simp [TooDeep, hstop, Kind.isPrefixOperator] at hdeep
    | cons t rest =>
        rw [List.head?_cons, Option.getD_some] at hdeep
        rw [hdeep.readExpr_eq] at hread
        cases hread
        rfl
  lacksLiteral hlacks := by
    cases rest with
    | nil => simp [LacksLiteral, hstop] at hlacks
    | cons t rest =>
        rw [List.head?_cons, Option.getD_some] at hlacks
        rw [hlacks.readExpr_eq] at hread
        cases hread
        rfl
  unclosed hgroup := by
    rcases h.cause hexplains stop with
      ⟨-, -, hdue⟩ | ⟨-, -, -, _, hdue⟩ | ⟨hfault, -⟩ | ⟨-, _, hdue⟩
    · exact absurd hgroup hdue.not_groupDue
    · exact absurd hgroup hdue.not_groupDue
    · rw [hfault]
      rfl
    · exact absurd hgroup hdue.not_groupDue
  other hdeep hlacks hgroup := by
    rcases h.cause hexplains stop with ⟨-, h⟩ | ⟨-, h⟩ | ⟨-, h⟩ | ⟨hfault, -⟩
    · exact absurd h hdeep
    · exact absurd h hlacks
    · exact absurd h hgroup
    · rw [hfault]
      rfl

end Wording

/-! ### The first impossible token -/

/-- The diagnostic that is recorded, if the record is of one. -/
def LogRecord.diagnostic? : LogRecord → Option Diagnostic
  | recorded d => some d
  | _ => none

namespace TokenStream

/-- From the place `i` on, the token at `k` is the first impossible one: the tokens before it
are the beginning of a sentence, and no sentence begins with them and it. -/
structure FirstImpossible (all : List Token) (i k : Nat) : Prop where
  le : i ≤ k
  goesOn : GoesOn (between all i k)
  impossible : ∀ more e, ¬Sentence (between all i (k + 1) ++ more) e

/-- An error of a reading that begins at `i` blames the token at `k`, in the words for what is
wrong with it there. -/
structure Blames (all : List Token) (i : Nat) (error : ParseError) (k : Nat) : Prop where
  token : all[k]? = some error.token
  first : FirstImpossible all i k
  worded : Worded (between all i k) error.token error.message

/-- A failed reading is put apart where it fails: `used` has been taken, and `rest` begins with
the token that is blamed, unless that is the end. -/
structure Breaks (s : TokenStream) (error : ParseError) (failure : Failure)
    (used rest : List Token) : Prop where
  pending : s.pending = used ++ rest
  read : readExpr s.pending = .error failure
  error_eq : error = ⟨rest.head?.getD s.stop, failure.fault⟩
  fails : ∃ state, (State.awaiting []).Takes used state ∧ state.Explains used ∧
    state.FailsAt rest failure

section Blame

variable {all used rest : List Token} {s : TokenStream} {i j k k' : Nat} {error : ParseError}
  {failure : Failure}

theorem between_append (hi : i ≤ j) (hj : j ≤ k) :
    between all i j ++ between all j k = between all i k := by
  have hsplit : k - i = j - i + (k - j) := by omega
  rw [between, between, between, hsplit, List.take_add, List.drop_drop, Nat.add_sub_cancel' hi]

theorem between_succ {t : Token} (h : all[k]? = some t) : between all k (k + 1) = [t] := by
  rw [between, Nat.add_sub_cancel_left, List.take_one, List.head?_drop, h]
  rfl

/-- There is at most one first impossible token. -/
theorem FirstImpossible.unique (h : FirstImpossible all i k) (h' : FirstImpossible all i k') :
    k = k' := by
  have hle : ∀ {k k'}, FirstImpossible all i k → FirstImpossible all i k' → k' ≤ k := by
    intro k k' h h'
    refine Nat.not_lt.mp fun hlt => ?_
    obtain ⟨more, e, -, hsentence⟩ := h'.goesOn
    rw [← between_append (Nat.le_succ_of_le h.le) hlt, List.append_assoc] at hsentence
    exact h.impossible _ _ hsentence
  exact Nat.le_antisymm (hle h' h) (hle h h')

theorem exists_breaks (h : s.read.outcome = .error error) :
    ∃ failure used rest, s.Breaks error failure used rest := by
  unfold read at h
  split at h
  · cases h
  · rename_i failure hread
    cases h
    obtain ⟨used, rest, state, hpending, htakes, hfails⟩ := State.exists_failsAt hread
    refine ⟨failure, used, rest, hpending, hread, ?_, state, htakes, ?_, hfails⟩
    · cases hfails <;> rfl
    · exact htakes.explains [] ⟨1, .start⟩

namespace Breaks

/-- No sentence begins with what has been taken and the token that is blamed. -/
theorem not_sentence (h : s.Breaks error failure used rest) (hstop : s.stop.kind = .eof)
    (more : List Token) (e : Expr) : ¬Sentence (used ++ error.token :: more) e := by
  intro hsentence
  obtain ⟨state, htakes, -, hfails⟩ := h.fails
  rw [h.error_eq] at hsentence
  cases hfails with
  | token hstep =>
      -- A sentence would be read up to its end, and the reading fails before that.
      have hend : ∀ t ∈ ([] : List Token).head?, t.kind.binding? = none := nofun
      have hread := readExpr_sentence hsentence hend
      rw [List.append_nil, readExpr, htakes.run, List.head?_cons, Option.getD_some, State.run,
        hstep] at hread
      cases hread
  | ending => exact hsentence.derives.kind_ne_eof s.stop (by simp) hstop

theorem getElem?_eq (h : s.Breaks error failure used rest) (hcovers : s.Covers all) :
    all[s.position + used.length]? = some error.token := by
  rw [hcovers.getElem?_position h.pending, h.error_eq]

theorem firstImpossible (h : s.Breaks error failure used rest) (hcovers : s.Covers all) :
    FirstImpossible all s.position (s.position + used.length) := by
  have hused := hcovers.between_position h.pending
  refine ⟨Nat.le_add_right _ _, ?_, fun more e => ?_⟩
  · obtain ⟨state, -, hexplains, -⟩ := h.fails
    rw [hused]
    exact hexplains.goesOn
  · rw [← between_append (Nat.le_add_right _ _) (Nat.le_succ _), hused,
      between_succ (h.getElem?_eq hcovers), List.append_assoc, List.singleton_append]
    exact h.not_sentence hcovers.stop_kind more e

theorem blames (h : s.Breaks error failure used rest) (hcovers : s.Covers all) :
    Blames all s.position error (s.position + used.length) := by
  refine ⟨h.getElem?_eq hcovers, h.firstImpossible hcovers, ?_⟩
  obtain ⟨state, -, hexplains, hfails⟩ := h.fails
  rw [hcovers.between_position h.pending, h.error_eq]
  exact hfails.worded hexplains (h.pending ▸ h.read) hcovers.stop_kind

end Breaks

/-- A failed reading logs that its error is recorded, and no other. -/
theorem diagnostics_of_error (h : s.read.outcome = .error error) :
    (s.read.log s).filterMap LogRecord.diagnostic? = [.parse error] := by
  have hskipped : (s.read.skipped.map LogRecord.skipped).filterMap LogRecord.diagnostic? = [] := by
    simp [List.filterMap_map, Function.comp_def, LogRecord.diagnostic?]
  rw [Attempt.log, h]
  show Diagnostic.parse error :: List.filterMap _ (_ ++ [_]) = _
  rw [List.filterMap_append, hskipped]
  rfl

/-- What a reading adds to a session is what its log says is recorded. -/
theorem readFrom_eq (session : Session) (s : TokenStream) :
    session.readFrom s = (s.read.outcome.toOption, s.read.stream,
      session.record ((s.read.log s).filterMap LogRecord.diagnostic?)) := by
  cases houtcome : s.read.outcome with
  | ok tree =>
      have hlog : (s.read.log s).filterMap LogRecord.diagnostic? = [] := by
        rw [Attempt.log, houtcome]
        rfl
      simp only [Session.readFrom, houtcome, hlog, Session.record_nil, Except.toOption]
  | error e =>
      simp only [Session.readFrom, houtcome, diagnostics_of_error houtcome, Except.toOption]

/-- In any session, a reading from any list of tokens that fails gives no tree and adds one
diagnostic to those that are pending, and to the static ones that are counted. It blames the
first token with which no sentence begins any more, and says why. -/
theorem read_blames (tokens : List Token) (n : Nat) {error : ParseError}
    (h : ((ofTokens tokens).after n).read.outcome = .error error) :
    let s := (ofTokens tokens).after n
    (∀ session : Session, session.readFrom s = (none, s.read.stream,
      { session with
        pending := session.pending ++ [.parse error]
        staticCount := session.staticCount + 1 })) ∧
      (s.read.log s).filterMap LogRecord.diagnostic? = [.parse error] ∧
      ∃ k, Blames (closed tokens) s.position error k := by
  intro s
  have hcovers : s.Covers (closed tokens) := covers_after tokens n
  have hlog := diagnostics_of_error h
  obtain ⟨failure, used, rest, hbreaks⟩ := exists_breaks h
  refine ⟨fun session => ?_, hlog, _, hbreaks.blames hcovers⟩
  rw [readFrom_eq, hlog, h]
  simp [Session.record, Except.toOption, Diagnostic.isStatic]

/-- The second reading of these tokens finds a statement inside of parentheses. -/
theorem read_blames_statement :
    let tokens : List Token := [⟨.kwNil, "nil", none, 1⟩, ⟨.leftParen, "(", none, 1⟩,
      ⟨.kwNil, "nil", none, 1⟩, ⟨.kwPrint, "print", none, 2⟩]
    let error : ParseError := ⟨⟨.kwPrint, "print", none, 2⟩, .unclosedGroup⟩
    let s := (ofTokens tokens).after 1
    s.read.outcome = .error error ∧
      (Session.fresh.readFrom s).2.2.pending = [.parse error] ∧
      (s.read.log s).filterMap LogRecord.diagnostic? = [.parse error] ∧
      Blames (closed tokens) 1 error 3 := by
  intro tokens error s
  have herror : s.read.outcome = .error error := by rfl
  obtain ⟨hsession, hlog, k, hblames⟩ := read_blames tokens 1 herror
  have hplace : ∀ k < 5, (closed tokens)[k]? = some error.token → k = 3 := by decide
  obtain rfl := hplace k (List.getElem?_eq_some_iff.mp hblames.token).1 hblames.token
  refine ⟨herror, ?_, hlog, hblames⟩
  rw [hsession]
  rfl

end Blame

end TokenStream

end LoxCalc
