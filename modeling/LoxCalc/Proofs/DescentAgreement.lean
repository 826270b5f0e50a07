import LoxCalc.Proofs.RecursiveDescent

/-!
# LoxCalc.Proofs.DescentAgreement

Reading by recursive descent does what the automaton does (`Reader.parse_follows`).

While the descent is in a phrase of level `n`, the phrases around it are the frames on the
automaton's stack. When it leaves the phrase, the automaton may still hold some of it in
frames, but in such that settle to the phrase's tree at every level up to `n` (`Reads`).
The two fail at the same token, and then the levels of nesting that the descent has opened
are closed again (`Fails`).
-/

namespace LoxCalc

/-- What binds looser than the loosest operators is none. -/
theorem Kind.binding?_eq_none {k : Kind} (h : k.binding?.getD 0 < 1) : k.binding? = none := by
  cases hb : k.binding? with
  | none => rfl
  | some b =>
      have hbounds := (Kind.binding_bounds hb).1
      rw [hb, Option.getD_some] at h
      omega

/-! ### Moments of a run -/

/-- A run of the automaton comes from one state and stream to another. -/
structure Leads (state : State) (s : TokenStream) (state' : State) (s' : TokenStream) : Prop where
  moved : s' = s.moveTo s'.pending
  suffix : s'.pending <:+ s.pending
  run : state.run s.pending = state'.run s'.pending

namespace Leads

variable {state state' state'' : State} {s s' s'' : TokenStream} {t : Token} {rest : List Token}

theorem trans (h : Leads state s state' s') (h' : Leads state' s' state'' s'') :
    Leads state s state'' s'' := by
  refine ⟨?_, h'.suffix.trans h.suffix, h.run.trans h'.run⟩
  have hmoved := h'.moved
  rwa [h.moved, TokenStream.moveTo_moveTo h.suffix.length_le h'.suffix.length_le] at hmoved

theorem taken (hp : s.pending = t :: rest) (hstep : state.step t = .advance state') :
    Leads state s state' (s.moveTo rest) :=
  ⟨rfl, hp ▸ List.suffix_cons t rest, hp ▸ State.run_advance hstep rest⟩

end Leads

namespace Reader

/-- A phrase has been read from the beginning of the stream `s` up to `s'`, where no
operator comes that binds as tightly as `m`. Up to level `n`, what the automaton holds
settles like the tree. -/
structure Reads (all : List Token) (n m : Nat) (stack : List Frame) (s : TokenStream)
    (e : Expr) (s' : TokenStream) (r : Reader) : Prop where
  leads : ∃ stack' e', Leads (.awaiting stack) s (.holding stack' e') s' ∧
    ∀ b ≤ n, Frame.settle b stack' e' = Frame.settle b stack e
  shorter : s'.pending.length < s.pending.length
  next : s'.current.kind.binding?.getD 0 < m
  follows : Follows all s' (Frame.depth stack) r

/-- The automaton fails from the state on, and the reader halts with its fault. -/
def Fails (all : List Token) (state : State) (depth : Nat) (s : TokenStream) (halt : Halt)
    (r : Reader) : Prop :=
  ∃ failure, state.run s.pending = .error failure ∧
    halt = .fault ⟨failure.culprit?.getD s.stop, failure.fault⟩ ∧
    Follows all (s.moveTo failure.rest) depth r

/-- What the descent gives for a phrase of level `n` is what the automaton does. -/
def Agrees (all : List Token) (n : Nat) (stack : List Frame) (s : TokenStream)
    (result : EStateM.Result Halt Reader Expr) : Prop :=
  (∃ e s' r, result = .ok e r ∧ Reads all n n stack s e s' r) ∨
    ∃ halt r, result = .error halt r ∧
      Fails all (.awaiting stack) (Frame.depth stack) s halt r

theorem Reads.agrees {all : List Token} {n : Nat} {stack : List Frame} {s s' : TokenStream}
    {e : Expr} {r : Reader} (h : Reads all n n stack s e s' r) :
    Agrees all n stack s (.ok e r) :=
  .inl ⟨e, s', r, rfl, h⟩

theorem Fails.agrees {all : List Token} {n : Nat} {stack : List Frame} {s : TokenStream}
    {halt : Halt} {r : Reader} (h : Fails all (.awaiting stack) (Frame.depth stack) s halt r) :
    Agrees all n stack s (.error halt r) :=
  .inr ⟨halt, r, rfl, h⟩

theorem Fails.of_leads {all : List Token} {state state' : State} {depth : Nat}
    {s s' : TokenStream} {halt : Halt} {r : Reader} (hleads : Leads state s state' s')
    (h : Fails all state' depth s' halt r) : Fails all state depth s halt r := by
  obtain ⟨failure, hrun, hhalt, hfollows⟩ := h
  have hrest := (State.run_failure_suffix hrun).length_le
  refine ⟨failure, hleads.run.trans hrun, ?_, ?_⟩
  · rw [hhalt, hleads.moved]
    rfl
  · rwa [hleads.moved, TokenStream.moveTo_moveTo hleads.suffix.length_le hrest] at hfollows

/-- A failure before the token that comes next, which may be the end. -/
theorem Fails.here {all : List Token} {state : State} {depth : Nat} {s : TokenStream}
    {fault : ParseFault} {r : Reader} (h : Follows all s depth r)
    (hnil : s.pending = [] → state.finish = .error fault)
    (hcons : s.current.kind ≠ .eof → state.step s.current = .fail fault false) :
    Fails all state depth s (.fault ⟨s.current, fault⟩) r := by
  cases hp : s.pending with
  | nil =>
      refine ⟨⟨fault, none, []⟩, ?_, ?_, ?_⟩
      · rw [hp, State.run, hnil hp]
      · rw [TokenStream.current_nil hp]
        rfl
      · show Follows all (s.moveTo []) depth r
        rw [← hp, TokenStream.moveTo_pending]
        exact h
  | cons t rest =>
      have hcurrent := TokenStream.current_cons hp
      have hne := h.covers.kind_ne_eof t (hp ▸ List.mem_cons_self)
      have hstep := hcons (hcurrent ▸ hne)
      rw [hcurrent] at hstep ⊢
      refine ⟨⟨fault, some t, t :: rest⟩, ?_, rfl, ?_⟩
      · rw [hp, State.run, hstep]
        rfl
      · show Follows all (s.moveTo (t :: rest)) depth r
        rw [← hp, TokenStream.moveTo_pending]
        exact h

/-- A failure at a token that has been taken. -/
theorem Fails.taken {all rest : List Token} {state : State} {depth : Nat} {s : TokenStream}
    {t : Token} {fault : ParseFault} {r : Reader} (h : Follows all s depth r)
    (hp : s.pending = t :: rest) (hstep : state.step t = .fail fault true) :
    Fails all state depth s (.fault ⟨t, fault⟩) r.taken := by
  refine ⟨⟨fault, some t, rest⟩, ?_, rfl, h.taken hp⟩
  rw [hp, State.run, hstep]
  rfl

/-! ### Phrases put together -/

namespace Reads

variable {all rest : List Token} {n m : Nat} {stack : List Frame} {s s₁ s' : TokenStream}
  {e l : Expr} {r : Reader} {t op : Token}

/-- A phrase of a tighter level is one of this level, up to the operators of this level
that may follow it. -/
theorem looser (h : Reads all (n + 1) m stack s e s' r) : Reads all n m stack s e s' r := by
  obtain ⟨stack', e', hleads, hsettle⟩ := h.leads
  exact ⟨⟨stack', e', hleads, fun b hb => hsettle b (Nat.le_succ_of_le hb)⟩, h.shorter, h.next,
    h.follows⟩

/-- Without an operator of this level behind it, the phrase is complete. -/
theorem complete (h : Reads all n (n + 1) stack s e s' r) (hn : 1 ≤ n)
    (hop : s'.current.kind.binding? ≠ some n) : Reads all n n stack s e s' r := by
  refine ⟨h.leads, h.shorter, ?_, h.follows⟩
  have hnext := h.next
  cases hb : s'.current.kind.binding? with
  | none => exact hn
  | some b =>
      rw [hb, Option.getD_some] at hnext
      have hne : b ≠ n := fun hbn => hop (hbn ▸ hb)
      rw [Option.getD_some]
      omega

theorem binary (hleads : Leads (.awaiting stack) s (.awaiting (.binary l op :: stack)) s₁)
    (hop : op.kind.binding? = some n)
    (h : Reads all (n + 1) m (.binary l op :: stack) s₁ e s' r) :
    Reads all n m stack s (.binary l op e) s' r := by
  obtain ⟨stack', e', hright, hsettle⟩ := h.leads
  refine ⟨⟨stack', e', hleads.trans hright, fun b hb => ?_⟩, ?_, h.next, ?_⟩
  · rw [hsettle b (Nat.le_succ_of_le hb), Frame.settle_binary hop hb]
  · exact Nat.lt_of_lt_of_le h.shorter hleads.suffix.length_le
  · have hfollows := h.follows
    rwa [Frame.depth_binary] at hfollows

theorem unary (hleads : Leads (.awaiting stack) s (.awaiting (.unary op :: stack)) s₁)
    (h : Reads all n m (.unary op :: stack) s₁ e s' r) :
    Reads all n m stack s (.unary op e) s' r.closed := by
  obtain ⟨stack', e', hoperand, hsettle⟩ := h.leads
  refine ⟨⟨stack', e', hleads.trans hoperand, fun b hb => ?_⟩, ?_, h.next, ?_⟩
  · rw [hsettle b hb, Frame.settle_unary]
  · exact Nat.lt_of_lt_of_le h.shorter hleads.suffix.length_le
  · have hfollows := h.follows
    rw [Frame.depth_unary] at hfollows
    exact hfollows.closed

/-- No operator binds tighter than a primary. -/
theorem primary {s₂ : TokenStream} (hleads : Leads (.awaiting stack) s (.holding stack e) s₂)
    (hshorter : s₂.pending.length < s.pending.length)
    (hfollows : Follows all s₂ (Frame.depth stack) r) : Reads all 5 5 stack s e s₂ r := by
  refine ⟨⟨stack, e, hleads, fun b _ => rfl⟩, hshorter, ?_, hfollows⟩
  cases hb : s₂.current.kind.binding? with
  | none => exact Nat.zero_lt_succ 4
  | some b => exact Nat.lt_succ_of_le (Kind.binding_bounds hb).2

theorem grouping (hleads : Leads (.awaiting stack) s (.awaiting (.group :: stack)) s₁)
    (h : Reads all 1 m (.group :: stack) s₁ e s' r) (hp : s'.pending = t :: rest)
    (ht : t.kind = .rightParen) :
    Reads all 5 5 stack s (.grouping e) (s'.moveTo rest) r.closed.taken := by
  obtain ⟨stack', e', hinner, hsettle⟩ := h.leads
  have hclosing : Leads (.holding stack' e') s' (.holding stack (.grouping e)) (s'.moveTo rest) :=
    .taken hp (State.step_closing ht (hsettle 0 (Nat.zero_le 1)))
  refine primary (hleads.trans (hinner.trans hclosing)) ?_ ?_
  · have hlt := h.shorter
    have hle := hleads.suffix.length_le
    have hlength := (hp ▸ List.suffix_cons t rest : rest <:+ s'.pending).length_le
    show rest.length < _
    omega
  · have hfollows := h.follows
    rw [Frame.depth_group] at hfollows
    exact hfollows.closed.taken hp

end Reads

/-! ### The levels of the descent -/

section Levels

variable {all : List Token} {calls : Nat}

/-- With so many calls, all phrases are read as the automaton does. A token may take a call
on each level, and one for each operator that is looked for behind it. -/
def PhrasesAgree (all : List Token) (calls : Nat) : Prop :=
  ∀ {n : Nat} {stack : List Frame} {s : TokenStream} {r : Reader}, 1 ≤ n → n ≤ 5 →
    Frame.Awaits n stack → Follows all s (Frame.depth stack) r →
    8 * s.pending.length + (7 - n) < calls → Agrees all n stack s (phrase calls n r)

/-- With so many calls, what may follow a left operand is read as the automaton does. -/
def ChainsAgree (all : List Token) (calls : Nat) : Prop :=
  ∀ {n : Nat} {stack : List Frame} {s s' : TokenStream} {left : Expr} {r : Reader}, 1 ≤ n →
    n ≤ 4 → Frame.Awaits n stack → Reads all n (n + 1) stack s left s' r →
    8 * s'.pending.length < calls → Agrees all n stack s (chain calls n left r)

theorem ChainsAgree.succ (hphrases : PhrasesAgree all calls) (hchains : ChainsAgree all calls) :
    ChainsAgree all (calls + 1) := by
  intro n stack s s' left r hone hn hawaits hleft hcalls
  have hfollows := hleft.follows
  obtain ⟨stack', e', hleads, hsettle⟩ := hleft.leads
  unfold chain
  by_cases hop : s'.current.kind.binding? = some n
  · have hne : s'.current.kind ≠ .eof := by
      intro heof
      rw [heof] at hop
      cases hop
    obtain ⟨rest, hp⟩ := hfollows.covers.pending_eq hne
    have hlength : s'.pending.length = rest.length + 1 := congrArg List.length hp
    rw [ite_of_accept (hfollows.accept_cons hp (by simpa using hop)),
      bind_of_ok (hfollows.previous_taken hp)]
    -- The operator settles the left operand, and the right one is read on top of it.
    have hheld : Frame.settle n stack' e' = (stack, left) := by
      rw [hsettle n (Nat.le_refl n), Frame.settle_of_awaits hawaits hn]
    have hoperator := hleads.trans (Leads.taken hp (State.step_operator hop hheld))
    have hright : Agrees all (n + 1) (.binary left s'.current :: stack) (s'.moveTo rest)
        (phrase calls (n + 1) r.taken) := by
      refine hphrases (Nat.succ_le_succ (Nat.zero_le n)) (Nat.succ_le_succ hn)
        (by simp [Frame.Awaits, hop]) ?_ ?_
      · rw [Frame.depth_binary]
        exact hfollows.taken hp
      · show 8 * rest.length + _ < _
        omega
    rcases hright with ⟨right, s'', r', hresult, hright⟩ | ⟨halt, r', hresult, hfails⟩
    · rw [bind_of_ok hresult]
      refine hchains hone hn hawaits (hright.binary hoperator hop) ?_
      have hshorter : s''.pending.length < rest.length := hright.shorter
      omega
    · rw [Frame.depth_binary] at hfails
      rw [bind_of_error hresult]
      exact (hfails.of_leads hoperator).agrees
  · rw [ite_of_not_accept (hfollows.accept_not (by simpa using hop))]
    exact (hleft.complete hone hop).agrees

/-- Behind a token that opens a level, either a phrase is read one level deeper, or the
reader halts where the automaton fails. -/
theorem nested_agrees {n : Nat} {stack : List Frame} {frame : Frame} {s : TokenStream}
    {r : Reader} {rule : Rule Expr} {t : Token} {rest : List Token}
    (hfollows : Follows all s (Frame.depth stack) r) (hp : s.pending = t :: rest)
    (hframe : Frame.depth (frame :: stack) = Frame.depth stack + 1)
    (hstep : (State.awaiting stack).step t = State.openLevel frame stack)
    (hrule : ∀ {r : Reader}, Follows all (s.moveTo rest) (Frame.depth (frame :: stack)) r →
      Agrees all n (frame :: stack) (s.moveTo rest) (rule r)) :
    (∃ e s' r', nested rule r.taken = .ok e r'.closed ∧
      Leads (.awaiting stack) s (.awaiting (frame :: stack)) (s.moveTo rest) ∧
      Reads all n n (frame :: stack) (s.moveTo rest) e s' r') ∨
    (∃ halt r', nested rule r.taken = .error halt r' ∧
      Fails all (.awaiting stack) (Frame.depth stack) s halt r') := by
  have htaken := hfollows.taken hp
  by_cases hdepth : Frame.depth stack < nestingLimit
  · rw [State.openLevel, if_pos hdepth] at hstep
    have hleads := Leads.taken hp hstep
    have hnow : r.taken.now.depth < nestingLimit := by
      rw [htaken.now_eq]
      exact hdepth
    have hopened := htaken.opened hdepth
    rw [← hframe] at hopened
    rw [nested_of_lt rule hnow]
    rcases hrule hopened with ⟨e, s', r', hresult, hreads⟩ | ⟨halt, r', hresult, hfails⟩
    · rw [hresult]
      exact .inl ⟨e, s', r', rfl, hleads, hreads⟩
    · rw [hresult]
      -- The level is closed on the way out of the failed rule.
      obtain ⟨failure, hrun, hhalt, hbehind⟩ := hfails
      rw [hframe] at hbehind
      exact .inr ⟨halt, r'.closed, rfl,
        Fails.of_leads hleads ⟨failure, hrun, hhalt, hbehind.closed⟩⟩
  · rw [State.openLevel, if_neg hdepth] at hstep
    have hnow : nestingLimit ≤ r.taken.now.depth := by
      rw [htaken.now_eq]
      exact Nat.not_lt.mp hdepth
    rw [nested_of_le rule hnow (hfollows.previous_taken hp)]
    exact .inr ⟨_, _, rfl, Fails.taken hfollows hp hstep⟩

/-- What stands in parentheses, and the closing one. -/
theorem primary_group_agrees {stack : List Frame} {s : TokenStream} {r : Reader} {t : Token}
    {rest : List Token} {expression : Rule Expr} (hfollows : Follows all s (Frame.depth stack) r)
    (hp : s.pending = t :: rest) (ht : t.kind = .leftParen)
    (hexpression : ∀ {r : Reader},
      Follows all (s.moveTo rest) (Frame.depth (.group :: stack)) r →
      Agrees all 1 (.group :: stack) (s.moveTo rest) (expression r)) :
    Agrees all 5 stack s (primary expression r) := by
  have hstep : (State.awaiting stack).step t = State.openLevel .group stack := by
    rw [State.step, State.stepOperand, ht]
  rw [hfollows.primary_group hp ht]
  rcases nested_agrees hfollows hp (Frame.depth_group stack) hstep hexpression with
    ⟨e, s', r', hnested, hleads, hinner⟩ | ⟨halt, r', hnested, hfails⟩
  · rw [bind_of_ok hnested]
    have hclosed : Follows all s' (Frame.depth stack) r'.closed := by
      have hbehind := hinner.follows
      rw [Frame.depth_group] at hbehind
      exact hbehind.closed
    -- The inner phrase ends before a token that is no operator, so the automaton settles
    -- what it holds down to the grouping, as the descent comes back to it.
    by_cases hclosing : s'.current.kind = .rightParen
    · have hne : s'.current.kind ≠ .eof := by simp [hclosing]
      obtain ⟨more, hp'⟩ := hclosed.covers.pending_eq hne
      have hconsume := hclosed.consume_cons hp' .unclosedGroup
      rw [hclosing] at hconsume
      rw [bind_of_ok hconsume]
      exact (hinner.grouping hleads hp' hclosing).agrees
    · rw [bind_of_error (hclosed.consume_other hclosing .unclosedGroup)]
      obtain ⟨stack', e', hrun, hsettle⟩ := hinner.leads
      have hheld : Frame.settle 0 stack' e' = (.group :: stack, e) := hsettle 0 (Nat.zero_le 1)
      have hop := Kind.binding?_eq_none hinner.next
      refine Fails.agrees (Fails.of_leads (hleads.trans hrun) (Fails.here hclosed ?_ ?_))
      · intro _
        simp only [State.finish, hheld]
      · intro _
        simp only [State.step, State.stepOperator, hop, hheld, if_neg hclosing]
  · rw [bind_of_error hnested]
    exact hfails.agrees

/-- A primary is read as the automaton does, if what stands in parentheses is. -/
theorem primary_agrees {stack : List Frame} {s : TokenStream} {r : Reader}
    {expression : Rule Expr} (hfollows : Follows all s (Frame.depth stack) r)
    (hnone : ¬s.current.kind.isPrefixOperator)
    (hexpression : ∀ {t : Token} {rest : List Token} {r : Reader}, s.pending = t :: rest →
      Follows all (s.moveTo rest) (Frame.depth (.group :: stack)) r →
      Agrees all 1 (.group :: stack) (s.moveTo rest) (expression r)) :
    Agrees all 5 stack s (primary expression r) := by
  cases hp : s.pending with
  | nil =>
      have hcurrent := TokenStream.current_nil hp
      have hstop := hfollows.covers.stop_kind
      rw [hfollows.primary_other (by simp [hcurrent, hstop]) (by simp [hcurrent, hstop])
        (by simp [Token.operand?, hcurrent, hstop])]
      refine Fails.agrees (Fails.here hfollows (fun _ => rfl) fun hne => ?_)
      exact absurd (hcurrent ▸ hstop) hne
  | cons t rest =>
      have hcurrent := TokenStream.current_cons hp
      rw [hcurrent] at hnone
      -- The cases are those of the automaton; without a prefix operator, what opens a
      -- level is a parenthesis.
      have heffect := (State.awaiting stack).step_effect t
      cases hstep : (State.awaiting stack).step t with
      | advance next =>
          rw [hstep] at heffect
          cases heffect with
          | openUnary hop _ => exact absurd hop hnone
          | openGroup hopen _ =>
              exact primary_group_agrees hfollows hp hopen (hexpression hp)
          | operand hv =>
              rw [hfollows.primary_operand hp hv]
              refine Reads.agrees (.primary (.taken hp hstep) ?_ (hfollows.taken hp))
              rw [hp]
              exact Nat.lt_succ_self rest.length
      | complete tree =>
          rw [hstep] at heffect
          cases heffect
      | fail fault taken =>
          rw [hstep] at heffect
          cases heffect with
          | tooDeep hopens _ =>
              rcases hopens with hop | hopen
              · exact absurd hop hnone
              · exact primary_group_agrees hfollows hp hopen (hexpression hp)
          | missingLiteral hkind hliteral =>
              rw [hfollows.primary_literal_of_kind hp hkind, hliteral]
              exact (Fails.taken hfollows hp hstep).agrees
          | missingExpression hopens hkind hoperand =>
              rw [not_or] at hopens
              rw [hfollows.primary_other (hcurrent ▸ hopens.2) (hcurrent ▸ hkind)
                (hcurrent ▸ hoperand)]
              refine Fails.agrees (Fails.here hfollows (fun _ => rfl) fun _ => ?_)
              rw [hcurrent]
              exact hstep

/-- A prefix operator with its operand, or a primary. -/
theorem PhrasesAgree.unary (hphrases : PhrasesAgree all calls) {stack : List Frame}
    {s : TokenStream} {r : Reader} (hfollows : Follows all s (Frame.depth stack) r)
    (hcalls : 8 * s.pending.length + 2 < calls + 1) :
    Agrees all 5 stack s (phrase (calls + 1) 5 r) := by
  unfold phrase
  rw [if_neg (by decide)]
  by_cases hop : s.current.kind.isPrefixOperator
  · have hne : s.current.kind ≠ .eof := by
      intro heof
      rw [heof] at hop
      cases hop
    obtain ⟨rest, hp⟩ := hfollows.covers.pending_eq hne
    have hlength : s.pending.length = rest.length + 1 := congrArg List.length hp
    have hstep : (State.awaiting stack).step s.current =
        State.openLevel (.unary s.current) stack := by
      rw [State.step, State.stepOperand]
      cases hk : s.current.kind <;> simp [hk, Kind.isPrefixOperator] at hop <;> rfl
    have hoperand : ∀ {r : Reader},
        Follows all (s.moveTo rest) (Frame.depth (.unary s.current :: stack)) r →
        Agrees all 5 (.unary s.current :: stack) (s.moveTo rest) (phrase calls 5 r) := by
      intro r hdeeper
      refine hphrases (by omega) (Nat.le_refl 5) (Nat.le_refl 5) hdeeper ?_
      show 8 * rest.length + _ < _
      omega
    rw [ite_of_accept (hfollows.accept_cons hp hop), bind_of_ok (hfollows.previous_taken hp)]
    rcases nested_agrees hfollows hp (Frame.depth_unary _ stack) hstep hoperand with
      ⟨e, s', r', hnested, hleads, hoperand⟩ | ⟨halt, r', hnested, hfails⟩
    · rw [bind_of_ok hnested]
      exact (hoperand.unary hleads).agrees
    · rw [bind_of_error hnested]
      exact hfails.agrees
  · rw [ite_of_not_accept (hfollows.accept_not (by simpa using hop))]
    refine primary_agrees hfollows hop fun {t rest _} hp hdeeper => ?_
    have hlength : s.pending.length = rest.length + 1 := congrArg List.length hp
    refine hphrases (Nat.le_refl 1) (by omega) trivial hdeeper ?_
    show 8 * rest.length + _ < _
    omega

theorem PhrasesAgree.succ (hphrases : PhrasesAgree all calls) (hchains : ChainsAgree all calls) :
    PhrasesAgree all (calls + 1) := by
  intro n stack s r hone hn hawaits hfollows hcalls
  by_cases hbinary : n ≤ 4
  · unfold phrase
    rw [if_pos hbinary]
    have hleft : Agrees all (n + 1) stack s (phrase calls (n + 1) r) :=
      hphrases (Nat.le_succ_of_le hone) (Nat.succ_le_succ hbinary) hawaits.succ hfollows
        (by omega)
    rcases hleft with ⟨left, s', r', hresult, hleft⟩ | ⟨halt, r', hresult, hfails⟩
    · rw [bind_of_ok hresult]
      have hshorter := hleft.shorter
      exact hchains hone hbinary hawaits hleft.looser (by omega)
    · rw [bind_of_error hresult]
      exact hfails.agrees
  · obtain rfl : n = 5 := by omega
    exact hphrases.unary hfollows hcalls

/-- All levels are read as the automaton does, whatever the number of calls: where it
is too small, nothing is claimed. -/
theorem levels_agree (all : List Token) (calls : Nat) :
    PhrasesAgree all calls ∧ ChainsAgree all calls := by
  induction calls with
  | zero =>
      refine ⟨?_, ?_⟩
      · intro n stack s r _ _ _ _ hcalls
        exact absurd hcalls (Nat.not_lt_zero _)
      · intro n stack s s' left r _ _ _ _ hcalls
        exact absurd hcalls (Nat.not_lt_zero _)
  | succ calls ih => exact ⟨PhrasesAgree.succ ih.1 ih.2, ChainsAgree.succ ih.1 ih.2⟩

end Levels

/-! ### Whole readings -/

section Readings

variable {all : List Token} {s : TokenStream} {depth : Nat} {r : Reader} {t : Token}

theorem Follows.of_moveTo {cut more : List Token} (hcut : cut.length ≤ s.pending.length)
    (hmore : more.length ≤ cut.length) (h : Follows all ((s.moveTo cut).moveTo more) depth r) :
    Follows all (s.moveTo more) depth r := by
  rwa [TokenStream.moveTo_moveTo hcut hmore] at h

/-- Skipping from a place behind a taken token. -/
theorem skip_follows {calls : Nat} (h : Follows all s depth r) (hprevious : previous r = .ok t r)
    (hcalls : s.pending.length < calls) :
    ∃ r', skip calls r = .ok () r' ∧
      Follows all (s.moveTo (skipToStatement t s.pending).2) depth r' := by
  -- A skipped token takes one call, and is the token before the next place.
  induction calls generalizing s r t with
  | zero => exact absurd hcalls (Nat.not_lt_zero _)
  | succ calls ih =>
      unfold skip
      rw [bind_of_ok h.peek]
      have hstay : Follows all (s.moveTo s.pending) depth r := by
        rwa [TokenStream.moveTo_pending]
      cases hp : s.pending with
      | nil =>
          rw [hp] at hstay
          rw [if_pos (TokenStream.current_nil hp ▸ h.covers.stop_kind)]
          exact ⟨r, rfl, hstay⟩
      | cons u rest =>
          rw [hp] at hstay
          have hne := h.covers.kind_ne_eof u (hp ▸ List.mem_cons_self)
          rw [TokenStream.current_cons hp, if_neg hne, bind_of_ok hprevious, skipToStatement]
          by_cases hsemicolon : t.kind = .semicolon
          · rw [if_pos hsemicolon, if_pos (.inl hsemicolon)]
            exact ⟨r, rfl, hstay⟩
          by_cases hstatement : u.kind.beginsStatement
          · rw [if_neg hsemicolon, if_pos hstatement, if_pos (.inr hstatement)]
            exact ⟨r, rfl, hstay⟩
          rw [if_neg hsemicolon, if_neg hstatement, bind_of_ok (h.advance_cons hp),
            if_neg (not_or.mpr ⟨hsemicolon, hstatement⟩)]
          have hlength : s.pending.length = rest.length + 1 := congrArg List.length hp
          have hothers : (skipToStatement u rest).2 <:+ rest := ⟨_, skipToStatement_append u rest⟩
          obtain ⟨r', hskip, hfollows⟩ :=
            ih (h.taken hp) (h.previous_taken hp) (by show rest.length < calls; omega)
          exact ⟨r', hskip, hfollows.of_moveTo (by omega) hothers.length_le⟩

theorem resume_follows {calls : Nat} (h : Follows all s depth r)
    (hcalls : s.pending.length < calls) :
    ∃ r', resume calls r = .ok () r' ∧
      Follows all (s.moveTo (recover s.pending).2) depth r' := by
  unfold resume
  cases hp : s.pending with
  | nil =>
      obtain ⟨t, hadvance⟩ := h.advance_nil hp
      obtain ⟨u, hprevious⟩ := h.previous
      have hskip := skip_follows h hprevious hcalls
      rw [hp] at hskip
      rw [bind_of_ok hadvance]
      exact hskip
  | cons t rest =>
      have hlength : s.pending.length = rest.length + 1 := congrArg List.length hp
      have hothers : (skipToStatement t rest).2 <:+ rest := ⟨_, skipToStatement_append t rest⟩
      have hmore : (s.moveTo rest).pending.length < calls := by
        show rest.length < calls
        omega
      obtain ⟨r', hskip, hfollows⟩ := skip_follows (h.taken hp) (h.previous_taken hp) hmore
      rw [bind_of_ok (h.advance_cons hp)]
      exact ⟨r', hskip, hfollows.of_moveTo (by omega) hothers.length_le⟩

/-- A complete phrase of the loosest level is a whole reading. -/
theorem Reads.readExpr_eq {e : Expr} {s' : TokenStream} (h : Reads all 1 1 [] s e s' r) :
    readExpr s.pending = .ok (e, s'.pending) := by
  obtain ⟨stack', e', hleads, hsettle⟩ := h.leads
  have hheld : Frame.settle 0 stack' e' = ([], e) := hsettle 0 (Nat.zero_le 1)
  rw [readExpr, hleads.run]
  cases hp : s'.pending with
  | nil => simp only [State.run, State.finish, hheld]
  | cons t rest =>
      have hop : t.kind.binding? = none := by
        rw [← TokenStream.current_cons hp]
        exact Kind.binding?_eq_none h.next
      simp only [State.run, State.step, State.stepOperator, hop, hheld]

/-- The outcome of a reading as the result of a rule. -/
def resultOf (outcome : Except ParseError Expr) (r : Reader) : EStateM.Result Halt Reader Expr :=
  match outcome with
  | .ok e => .ok e r
  | .error error => .error (.fault error) r

/-- A reading by descent gives what the stream gives, and ends where it ends. -/
theorem parse_follows (h : Follows all s 0 r) :
    ∃ r', parse r = resultOf s.read.outcome r' ∧ Follows all s.read.stream 0 r' := by
  have hlength : s.pending.length < r.tokens.length := by
    rw [h.tokens_eq]
    obtain ⟨tail, htail⟩ := h.covers.ahead
    have hdrop := congrArg List.length htail
    rw [List.length_drop, List.length_append, List.length_cons] at hdrop
    omega
  have hphrase : Agrees all 1 [] s (phrase (8 * (r.tokens.length + 1)) 1 r) :=
    (levels_agree all _).1 (Nat.le_refl 1) (by omega) trivial h (by omega)
  rw [parse_eq]
  rcases hphrase with ⟨e, s', r', hresult, hreads⟩ | ⟨_, r', hresult, hfails⟩
  · obtain ⟨_, _, hleads, -⟩ := hreads.leads
    rw [hresult, TokenStream.read, hreads.readExpr_eq]
    refine ⟨r', rfl, ?_⟩
    show Follows all (s.moveTo s'.pending) 0 r'
    rw [← hleads.moved]
    exact hreads.follows
  · obtain ⟨failure, hrun, rfl, hfollows⟩ := hfails
    have hrest := (State.run_failure_suffix hrun).length_le
    have hread : readExpr s.pending = .error failure := hrun
    have hmore : (s.moveTo failure.rest).pending.length < r.tokens.length + 1 := by
      show failure.rest.length < _
      omega
    -- No level is open any more when the descent comes to recover.
    obtain ⟨r'', hresume, hbehind⟩ := resume_follows hfollows hmore
    rw [hresult, TokenStream.read, hread]
    refine ⟨r'', bind_of_ok hresume _, ?_⟩
    exact hbehind.of_moveTo hrest (recover_suffix failure.rest).length_le

end Readings

end Reader

end LoxCalc
