import LoxCalc.Proofs.BlamedTokens

/-!
# LoxCalc.Proofs.Recovery

Where a stream stands after a failed reading.

A *resume point* is the end of the input, a token that begins a statement, or the place behind
a semicolon. Skipping stops at the first one from where it begins (`skip_resumesFrom`). It
begins behind one token that is left unseen, and that is the token to blame unless the reading
has taken it already (`State.FailsAt.rest_eq`).

So a reading resumes at the first resume point behind the token it blames, but for one case
(`TokenStream.read_resumes`): where that token has been taken and a statement begins right
behind it, the statement is skipped too (`TokenStream.statement_lost`).
-/

namespace LoxCalc

/-- Is a token with this fault taken before the fault is found? -/
def ParseFault.takesToken : ParseFault → Bool
  | tooDeep | missingLiteral => true
  | missingExpression | unclosedGroup | other _ => false

/-- What a failure leaves over begins behind the token to blame if that has been taken, and
with it otherwise. -/
theorem State.FailsAt.rest_eq {s : State} {rest : List Token} {failure : Failure}
    (h : s.FailsAt rest failure) :
    failure.rest = if failure.fault.takesToken then rest.tail else rest := by
  cases h with
  | @token t rest fault taken hstep =>
      have heffect := s.step_effect t
      rw [hstep] at heffect
      cases heffect <;> rfl
  | ending => split <;> rfl

namespace TokenStream

/-! ### Resume points -/

/-- The places where reading may go on after an error. -/
inductive ResumePoint (all : List Token) : Nat → Prop where
  | stop {j : Nat} {t : Token} (here : all[j]? = some t) (kind : t.kind = .eof) :
      ResumePoint all j
  | statement {j : Nat} {t : Token} (here : all[j]? = some t) (kind : t.kind.beginsStatement) :
      ResumePoint all j
  | semicolon {i : Nat} {t : Token} (before : all[i]? = some t) (kind : t.kind = .semicolon) :
      ResumePoint all (i + 1)

/-- The first resume point from a place on. -/
structure ResumesFrom (all : List Token) (start j : Nat) : Prop where
  le : start ≤ j
  point : ResumePoint all j
  first : ∀ i, start ≤ i → i < j → ¬ResumePoint all i

section Recovery

variable {all used rest more : List Token} {s : TokenStream} {i j : Nat} {t previous : Token}
  {error : ParseError} {failure : Failure}

theorem ResumePoint.resumesFrom (h : ResumePoint all j) : ResumesFrom all j j :=
  ⟨Nat.le_refl j, h, fun _ hle hlt => absurd hlt (Nat.not_lt.mpr hle)⟩

theorem ResumesFrom.of_not (h : ResumesFrom all (i + 1) j) (hnot : ¬ResumePoint all i) :
    ResumesFrom all i j := by
  refine ⟨Nat.le_of_succ_le h.le, h.point, fun i' hle hlt => ?_⟩
  rcases Nat.eq_or_lt_of_le hle with rfl | hnext
  · exact hnot
  · exact h.first i' hnext hlt

theorem ResumePoint.at_end (hcovers : s.Covers all) (hp : s.pending = []) :
    ResumePoint all s.position := by
  have hcurrent := hcovers.getElem?_current
  rw [current_nil hp] at hcurrent
  exact .stop hcurrent hcovers.stop_kind

/-- A token that is no end and begins no statement is skipped, unless it stands behind a
semicolon. -/
theorem not_resumePoint (hhere : all[i + 1]? = some t) (hbefore : all[i]? = some previous)
    (heof : t.kind ≠ .eof) (hskip : ¬(previous.kind = .semicolon ∨ t.kind.beginsStatement)) :
    ¬ResumePoint all (i + 1) := by
  rw [not_or] at hskip
  intro hpoint
  cases hpoint with
  | stop hu hkind =>
      obtain rfl := Option.some.inj (hhere.symm.trans hu)
      exact heof hkind
  | statement hu hkind =>
      obtain rfl := Option.some.inj (hhere.symm.trans hu)
      exact hskip.2 hkind
  | semicolon hu hkind =>
      obtain rfl := Option.some.inj (hbefore.symm.trans hu)
      exact hskip.1 hkind

/-- Skipping, from where a stream stands behind some token, ends at the first resume point. -/
theorem skip_resumesFrom (hcovers : s.Covers all) (hplace : s.position = i + 1)
    (hbefore : all[i]? = some previous) :
    ResumesFrom all s.position (s.moveTo (skipToStatement previous s.pending).2).position := by
  -- The induction is on what is pending; a token that is skipped is the one before the next.
  generalize hp : s.pending = tokens
  induction tokens generalizing s i previous with
  | nil =>
      have hstays : s.moveTo [] = s := by rw [← hp, moveTo_pending]
      rw [skipToStatement, hstays]
      exact (ResumePoint.at_end hcovers hp).resumesFrom
  | cons t rest ih =>
      have hhere := hcovers.getElem?_current
      rw [current_cons hp] at hhere
      rw [skipToStatement]
      split
      · rename_i hstop
        have hstays : s.moveTo (t :: rest) = s := by rw [← hp, moveTo_pending]
        rw [hstays]
        refine ResumePoint.resumesFrom ?_
        rcases hstop with hsemicolon | hstatement
        · rw [hplace]
          exact .semicolon hbefore hsemicolon
        · exact .statement hhere hstatement
      · rename_i hskip
        have hnext : (s.moveTo rest).position = s.position + 1 :=
          moveTo_position (show s.pending = [t] ++ rest from hp)
        have hothers : (skipToStatement t rest).2 <:+ rest := ⟨_, skipToStatement_append t rest⟩
        have hmoved := ih (hcovers.moveTo (hp ▸ List.suffix_cons t rest)) hnext hhere rfl
        rw [moveTo_moveTo (hp ▸ (List.suffix_cons t rest).length_le) hothers.length_le,
          hnext] at hmoved
        refine hmoved.of_not ?_
        rw [hplace] at hhere ⊢
        exact not_resumePoint hhere hbefore
          (hcovers.kind_ne_eof t (hp ▸ List.mem_cons_self)) hskip

/-! ### After a failed reading -/

/-- A recovery that begins with a token ends at the first resume point behind it. -/
theorem recover_resumesFrom (hcovers : s.Covers all) (hp : s.pending = used ++ t :: more) :
    ResumesFrom all (s.position + used.length + 1)
      (s.moveTo (recover (t :: more)).2).position := by
  have hsplit : s.pending = (used ++ [t]) ++ more := by simp [hp]
  have hplace : (s.moveTo more).position = s.position + used.length + 1 := by
    rw [moveTo_position hsplit, List.length_append, List.length_singleton, Nat.add_assoc]
  have hsuffix : more <:+ s.pending := ⟨_, hsplit.symm⟩
  have hothers : (skipToStatement t more).2 <:+ more := ⟨_, skipToStatement_append t more⟩
  have hmoved := skip_resumesFrom (hcovers.moveTo hsuffix) hplace (hcovers.getElem?_position hp)
  rw [hplace] at hmoved
  show ResumesFrom all _ (s.moveTo (skipToStatement t more).2).position
  rw [← moveTo_moveTo hsuffix.length_le hothers.length_le]
  exact hmoved

namespace Breaks

theorem stream_eq (h : s.Breaks error failure used rest) :
    s.read.stream = s.moveTo (recover failure.rest).2 := by
  rw [TokenStream.read, h.read]

theorem rest_eq (h : s.Breaks error failure used rest) :
    failure.rest = if error.fault.takesToken then rest.tail else rest := by
  obtain ⟨state, -, -, hfails⟩ := h.fails
  rw [hfails.rest_eq, h.error_eq]

/-- At the end, the stream stays. -/
theorem position_of_nil (h : s.Breaks error failure used []) :
    s.read.stream.position = s.position + used.length := by
  have hrest : failure.rest = [] := by
    rw [h.rest_eq]
    split <;> rfl
  rw [h.stream_eq, hrest]
  exact moveTo_position h.pending

theorem resumesFrom_of_not_taken (h : s.Breaks error failure used (t :: more))
    (hcovers : s.Covers all) (htaken : ¬error.fault.takesToken) :
    ResumesFrom all (s.position + used.length + 1) s.read.stream.position := by
  rw [h.stream_eq, h.rest_eq, if_neg htaken]
  exact recover_resumesFrom hcovers h.pending

/-- Behind a token that has been taken, one more is left unseen if there is one. -/
theorem resumesFrom_of_taken (h : s.Breaks error failure used (t :: more))
    (hcovers : s.Covers all) (htaken : error.fault.takesToken) :
    ∃ u, all[s.position + used.length + 1]? = some u ∧
      (u.kind = .eof ∧ s.read.stream.position = s.position + used.length + 1 ∨
        u.kind ≠ .eof ∧
          ResumesFrom all (s.position + used.length + 2) s.read.stream.position) := by
  have hsplit : s.pending = (used ++ [t]) ++ more := by simp [h.pending]
  have hplace : s.position + (used ++ [t]).length = s.position + used.length + 1 := by
    rw [List.length_append, List.length_singleton, Nat.add_assoc]
  have hhere := hcovers.getElem?_position hsplit
  rw [h.stream_eq, h.rest_eq, if_pos htaken, List.tail_cons]
  rw [hplace] at hhere
  refine ⟨_, hhere, ?_⟩
  cases more with
  | nil => exact .inl ⟨hcovers.stop_kind, (moveTo_position hsplit).trans hplace⟩
  | cons u more =>
      have hmoved := recover_resumesFrom hcovers hsplit
      rw [hplace] at hmoved
      exact .inr ⟨hcovers.kind_ne_eof u (by simp [h.pending]), hmoved⟩

/-- A token that has been taken with its fault begins an operand. -/
theorem kind_of_taken (h : s.Breaks error failure used rest) (htaken : error.fault.takesToken) :
    error.token.kind ≠ .eof ∧ error.token.kind ≠ .semicolon := by
  obtain ⟨state, -, hexplains, hfails⟩ := h.fails
  have htoken : error.token = rest.head?.getD s.stop := by rw [h.error_eq]
  rw [h.error_eq] at htaken
  rw [htoken]
  rcases hfails.cause hexplains s.stop with
    ⟨-, hopener, -⟩ | ⟨-, hliteral, -⟩ | ⟨hfault, -⟩ | ⟨hfault, -⟩
  · constructor <;> intro hkind <;> simp [hkind, Kind.isPrefixOperator] at hopener
  · constructor <;> intro hkind <;> simp [hkind] at hliteral
  · rw [hfault] at htaken
    cases htaken
  · rw [hfault] at htaken
    cases htaken

end Breaks

/-- The token at `b` has been taken when its fault is found, and a statement begins right
behind it. -/
def LosesStatement (all : List Token) (fault : ParseFault) (b : Nat) : Prop :=
  fault.takesToken ∧ ∃ u, all[b + 1]? = some u ∧ u.kind.beginsStatement

/-- The stream goes from an error that blames the token at `b` to the place `j`. -/
structure Recovers (all : List Token) (error : ParseError) (b j : Nat) : Prop where
  stays : error.token.kind = .eof → j = b
  resumes : error.token.kind ≠ .eof → ¬LosesStatement all error.fault b →
    ResumesFrom all (b + 1) j
  loses : LosesStatement all error.fault b → ResumesFrom all (b + 2) j

theorem Breaks.recovers (h : s.Breaks error failure used rest) (hcovers : s.Covers all) :
    Recovers all error (s.position + used.length) s.read.stream.position := by
  have hblamed := h.getElem?_eq hcovers
  cases rest with
  | nil =>
      have heof : error.token.kind = .eof := by
        rw [h.error_eq]
        exact hcovers.stop_kind
      refine ⟨fun _ => h.position_of_nil, fun hne => absurd heof hne, ?_⟩
      rintro ⟨htaken, -⟩
      exact absurd heof (h.kind_of_taken htaken).1
  | cons t more =>
      have heof : error.token.kind ≠ .eof := by
        rw [h.error_eq]
        exact hcovers.kind_ne_eof t (by simp [h.pending])
      refine ⟨fun hkind => absurd hkind heof, fun _ hkeeps => ?_, fun hloses => ?_⟩
      · by_cases htaken : error.fault.takesToken
        · obtain ⟨u, hu, ⟨hkind, hplace⟩ | ⟨hkind, hresumes⟩⟩ :=
            h.resumesFrom_of_taken hcovers htaken
          · rw [hplace]
            exact (ResumePoint.stop hu hkind).resumesFrom
          · -- The token that is left unseen is none to resume at.
            have hno : ¬u.kind.beginsStatement := fun hbegins => hkeeps ⟨htaken, u, hu, hbegins⟩
            have hskip := not_or.mpr ⟨(h.kind_of_taken htaken).2, hno⟩
            exact hresumes.of_not (not_resumePoint hu hblamed hkind hskip)
        · exact h.resumesFrom_of_not_taken hcovers htaken
      · obtain ⟨htaken, u, hu, hbegins⟩ := hloses
        obtain ⟨u', hu', ⟨hkind, -⟩ | ⟨-, hresumes⟩⟩ := h.resumesFrom_of_taken hcovers htaken
        · obtain rfl := Option.some.inj (hu.symm.trans hu')
          rw [hkind] at hbegins
          cases hbegins
        · exact hresumes

/-- After any failed reading, from any list of tokens, the stream stays at the end if that is
blamed. Otherwise it goes on to the first resume point behind the blamed token, but when this
has been taken and a statement begins right behind it: then to the first one behind both. -/
theorem read_resumes (tokens : List Token) (n : Nat) {error : ParseError}
    (h : ((ofTokens tokens).after n).read.outcome = .error error) :
    let s := (ofTokens tokens).after n
    ∃ b, (closed tokens)[b]? = some error.token ∧ FirstImpossible (closed tokens) s.position b ∧
      Recovers (closed tokens) error b s.read.stream.position := by
  intro s
  have hcovers : s.Covers (closed tokens) := covers_after tokens n
  obtain ⟨failure, used, rest, hbreaks⟩ := exists_breaks h
  exact ⟨_, hbreaks.getElem?_eq hcovers, hbreaks.firstImpossible hcovers,
    hbreaks.recovers hcovers⟩

/-- One level of nesting too many, and a statement inside of it. -/
def overfull : List Token :=
  List.replicate nestingLimit ⟨.bang, "!", none, 1⟩ ++ [⟨.leftParen, "(", none, 1⟩,
    ⟨.kwPrint, "print", none, 1⟩, ⟨.kwNil, "nil", none, 1⟩, ⟨.semicolon, ";", none, 1⟩,
    ⟨.kwNil, "nil", none, 1⟩]

theorem overfull_outcome :
    (ofTokens overfull).read.outcome = .error ⟨⟨.leftParen, "(", none, 1⟩, .tooDeep⟩ := by
  rfl

theorem eq_of_overfull_paren {k : Nat}
    (h : (closed overfull)[k]? = some ⟨.leftParen, "(", none, 1⟩) : k = 128 := by
  have hplace : ∀ k < 134, (closed overfull)[k]? = some ⟨.leftParen, "(", none, 1⟩ → k = 128 := by
    decide +kernel
  exact hplace k (List.getElem?_eq_some_iff.mp h).1 h

/-- The reading goes on behind the semicolon. -/
theorem read_resumes_overfull :
    (ofTokens overfull).read.outcome = .error ⟨⟨.leftParen, "(", none, 1⟩, .tooDeep⟩ ∧
      FirstImpossible (closed overfull) 0 128 ∧
      Recovers (closed overfull) ⟨⟨.leftParen, "(", none, 1⟩, .tooDeep⟩ 128 132 := by
  obtain ⟨b, hblamed, hfirst, hrecovers⟩ := read_resumes overfull 0 overfull_outcome
  obtain rfl := eq_of_overfull_paren hblamed
  have hmoved : ((ofTokens overfull).after 0).read.stream.position = 132 := by decide +kernel
  rw [hmoved] at hrecovers
  exact ⟨overfull_outcome, hfirst, hrecovers⟩

/-- Not every reading that blames a token before the end resumes at the first resume point
behind it: the statement behind the parenthesis is lost. -/
theorem statement_lost :
    ¬∀ tokens n error b, ((ofTokens tokens).after n).read.outcome = .error error →
      (closed tokens)[b]? = some error.token →
      FirstImpossible (closed tokens) ((ofTokens tokens).after n).position b →
      error.token.kind ≠ .eof →
      ResumesFrom (closed tokens) (b + 1) ((ofTokens tokens).after n).read.stream.position := by
  intro hall
  obtain ⟨failure, used, rest, hbreaks⟩ := exists_breaks overfull_outcome
  have hcovers := covers_ofTokens overfull
  have hblamed := hbreaks.getElem?_eq hcovers
  have hfirst := hbreaks.firstImpossible hcovers
  have hb := eq_of_overfull_paren hblamed
  rw [hb] at hblamed hfirst
  have hresumes := hall overfull 0 _ 128 overfull_outcome hblamed hfirst nofun
  have hprint : ResumePoint (closed overfull) 129 := .statement rfl rfl
  exact hresumes.first 129 (by decide) (by decide +kernel) hprint

end Recovery

end TokenStream

end LoxCalc
