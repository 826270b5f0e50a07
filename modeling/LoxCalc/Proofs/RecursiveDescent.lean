import LoxCalc.Proofs.TokenStreams

/-!
# LoxCalc.Proofs.RecursiveDescent

Reading by recursive descent: one function for each level of the grammar, over a cursor
into the tokens and a count of the open levels of nesting.

* A `Reader` keeps every moment of its reading, so that it can be told what holds at all of
  them. A rule halts with `outOfRange` where it looks at a place without a token.
* The levels call each other over and over, so the recursion is on a number of calls. It
  halts with `outOfCalls` where they do not suffice.
* `Follows` ties a reader to the stream that stands where the reader does, and says that
  the reader has been safe so far. What the small rules do is told in terms of the stream.
-/

namespace LoxCalc

/-! ### Readers -/

/-- A moment of a reading. -/
structure Moment where
  /-- The place of the token to look at next. -/
  cursor : Nat
  /-- How many levels of nesting are open. -/
  depth : Nat

/-- Tokens that are looked at one at a time. -/
structure Reader where
  /-- All the tokens. -/
  tokens : List Token
  /-- Where the reading stands. -/
  now : Moment
  /-- The moments before, the latest first. -/
  past : List Moment

/-- Why a reading stops without a result. -/
inductive Halt where
  /-- The tokens do not go on as an expression. -/
  | fault (error : ParseError)
  /-- There is no token where one was looked for. -/
  | outOfRange
  /-- The calls that were allowed are used up. -/
  | outOfCalls

/-- What reads from where a reader stands. However it ends, the reader stays where it
was left. -/
abbrev Rule (α : Type) : Type := EStateM Halt Reader α

namespace Reader

/-- The reader of the tokens before anything is read. -/
def ofTokens (tokens : List Token) : Reader := ⟨TokenStream.closed tokens, ⟨0, 0⟩, []⟩

/-- All moments of the reading so far. -/
def moments (r : Reader) : List Moment := r.now :: r.past

/-- The reader at a further moment. -/
def moveTo (r : Reader) (next : Moment) : Reader :=
  { r with now := next, past := r.moments }

/-- The reader behind the token that was next. -/
def taken (r : Reader) : Reader := r.moveTo { r.now with cursor := r.now.cursor + 1 }

/-- The reader one level deeper. -/
def opened (r : Reader) : Reader := r.moveTo { r.now with depth := r.now.depth + 1 }

/-- The reader one level less deep. -/
def closed (r : Reader) : Reader := r.moveTo { r.now with depth := r.now.depth - 1 }

/-! ### Rules -/

/-- The token at a place. -/
def look (place : Nat) : Rule Token := do
  match (← get).tokens[place]? with
  | some t => return t
  | none => throw .outOfRange

/-- The token that comes next. -/
def peek : Rule Token := do
  look (← get).now.cursor

/-- The token that was taken last. -/
def previous : Rule Token := do
  look ((← get).now.cursor - 1)

/-- Takes a token, unless it is the end of the input. -/
def advance : Rule Token := do
  if (← peek).kind = .eof then
    previous
  else
    modify taken
    previous

/-- Takes a token of the wanted kinds, if it comes next. -/
def accept (wanted : Kind → Bool) : Rule Bool := do
  let t ← peek
  if t.kind ≠ .eof ∧ wanted t.kind then
    let _ ← advance
    return true
  else
    return false

/-- Takes a token of one kind, or blames the one that comes instead. -/
def consume (kind : Kind) (fault : ParseFault) : Rule Token := do
  let t ← peek
  if t.kind ≠ .eof ∧ t.kind = kind then
    advance
  else
    throw (.fault ⟨t, fault⟩)

/-- Reads one level deeper, within the limit of nesting. The level is closed again
however the rule ends. -/
def nested {α : Type} (rule : Rule α) : Rule α := do
  if nestingLimit ≤ (← get).now.depth then
    throw (.fault ⟨← previous, .tooDeep⟩)
  else
    modify opened
    try rule
    finally modify closed

/-- A literal, or what `expression` reads in parentheses. -/
def primary (expression : Rule Expr) : Rule Expr := do
  if ← accept (· == .kwFalse) then
    return .literal (.boolean false)
  else if ← accept (· == .kwTrue) then
    return .literal (.boolean true)
  else if ← accept (· == .kwNil) then
    return .literal .nil
  else if ← accept (fun kind => kind == .number || kind == .string) then
    let t ← previous
    match t.literal with
    | some v => return .literal v
    | none => throw (.fault ⟨t, .missingLiteral⟩)
  else if ← accept (· == .leftParen) then
    let inner ← nested expression
    let _ ← consume .rightParen .unclosedGroup
    return .grouping inner
  else
    throw (.fault ⟨← peek, .missingExpression⟩)

mutual

/-- A phrase of a level: a chain of binary operations for the four loosest, and a prefix
expression for the others. -/
def phrase (calls level : Nat) : Rule Expr :=
  match calls with
  | 0 => throw .outOfCalls
  | calls + 1 =>
    if level ≤ 4 then do
      let left ← phrase calls (level + 1)
      chain calls level left
    else do
      if ← accept Kind.isPrefixOperator then
        let op ← previous
        let operand ← nested (phrase calls level)
        return .unary op operand
      else
        primary (phrase calls 1)

/-- The operators of a level, with their right operands, after a left operand. -/
def chain (calls level : Nat) (left : Expr) : Rule Expr :=
  match calls with
  | 0 => throw .outOfCalls
  | calls + 1 => do
    if ← accept (·.binding? == some level) then
      let op ← previous
      let right ← phrase calls (level + 1)
      chain calls level (.binary left op right)
    else
      return left

end

/-- Takes tokens up to one that begins a statement, or to one after a semicolon. -/
def skip : Nat → Rule Unit
  | 0 => throw .outOfCalls
  | calls + 1 => do
    let t ← peek
    if t.kind = .eof then
      return
    else if (← previous).kind = .semicolon then
      return
    else if t.kind.beginsStatement then
      return
    else
      let _ ← advance
      skip calls

/-- Leaves one token behind unseen and skips to where a statement may begin. -/
def resume (calls : Nat) : Rule Unit := do
  let _ ← advance
  skip calls

/-- Reads one expression. After a fault, goes on to where a statement may begin. -/
def parse : Rule Expr := do
  let size := (← get).tokens.length
  try phrase (8 * (size + 1)) 1
  catch
    | .fault error =>
      resume (size + 1)
      throw (.fault error)
    | halt => throw halt

/-- The reader after some readings. -/
def after (r : Reader) : Nat → Reader
  | 0 => r
  | n + 1 =>
    match parse (r.after n) with
    | .ok _ next | .error _ next => next

/-! ### Sequences of rules -/

section Sequences

variable {α β : Type} {r r' : Reader}

theorem bind_of_ok {rule : Rule α} {a : α} (h : rule r = .ok a r') (next : α → Rule β) :
    (rule >>= next) r = next a r' := by
  show EStateM.bind rule next r = next a r'
  rw [EStateM.bind, h]

theorem bind_of_error {rule : Rule α} {halt : Halt} (h : rule r = .error halt r')
    (next : α → Rule β) : (rule >>= next) r = .error halt r' := by
  show EStateM.bind rule next r = .error halt r'
  rw [EStateM.bind, h]

theorem ite_of_accept {wanted : Kind → Bool} (h : accept wanted r = .ok true r')
    (yes no : Rule α) : (do if ← accept wanted then yes else no) r = yes r' := by
  rw [bind_of_ok h, if_pos rfl]

theorem ite_of_not_accept {wanted : Kind → Bool} (h : accept wanted r = .ok false r')
    (yes no : Rule α) : (do if ← accept wanted then yes else no) r = no r' := by
  rw [bind_of_ok h, if_neg Bool.false_ne_true]

theorem get_eq (r : Reader) : (get : Rule Reader) r = .ok r r := rfl

theorem modify_eq (change : Reader → Reader) (r : Reader) :
    (modify change : Rule Unit) r = .ok () (change r) := rfl

theorem look_eq (place : Nat) {t : Token} (h : r.tokens[place]? = some t) :
    look place r = .ok t r := by
  unfold look
  rw [bind_of_ok (get_eq r), h]
  rfl

theorem nested_of_lt (rule : Rule α) (h : r.now.depth < nestingLimit) :
    nested rule r =
      match rule r.opened with
      | .ok a r => .ok a r.closed
      | .error halt r => .error halt r.closed := by
  unfold nested
  rw [bind_of_ok (get_eq r), if_neg (Nat.not_le.mpr h), bind_of_ok (modify_eq opened r)]
  show EStateM.map _ _ _ = _
  rw [EStateM.map]
  simp only [tryFinally']
  cases rule r.opened <;> rfl

theorem nested_of_le {t : Token} (rule : Rule α) (h : nestingLimit ≤ r.now.depth)
    (hprevious : previous r = .ok t r) : nested rule r = .error (.fault ⟨t, .tooDeep⟩) r := by
  unfold nested
  rw [bind_of_ok (get_eq r), if_pos h, bind_of_ok hprevious]
  rfl

theorem parse_eq (r : Reader) :
    parse r =
      match phrase (8 * (r.tokens.length + 1)) 1 r with
      | .error (.fault error) r' =>
        (do resume (r.tokens.length + 1); throw (.fault error) : Rule Expr) r'
      | other => other := by
  unfold parse
  rw [bind_of_ok (get_eq r)]
  show EStateM.tryCatch (phrase (8 * (r.tokens.length + 1)) 1) _ r = _
  delta EStateM.tryCatch
  cases phrase (8 * (r.tokens.length + 1)) 1 r with
  | ok e r' => rfl
  | error halt r' => cases halt <;> rfl

end Sequences

/-! ### Readers that follow a stream -/

/-- The reader stands where the stream does, with the levels of nesting open that are
counted, and has never been past the end of the input or deeper than the limit. -/
structure Follows (all : List Token) (s : TokenStream) (depth : Nat) (r : Reader) : Prop where
  tokens_eq : r.tokens = all
  covers : s.Covers all
  now_eq : r.now = ⟨s.position, depth⟩
  within : ∀ m ∈ r.moments, m.cursor ≤ s.position + s.pending.length ∧ m.depth ≤ nestingLimit

namespace Follows

variable {α : Type} {all rest : List Token} {s : TokenStream} {depth : Nat} {r : Reader}
  {t : Token} {wanted : Kind → Bool}

theorem look_of_le (h : Follows all s depth r) (place : Nat) (hle : place ≤ s.position) :
    ∃ t, look place r = .ok t r := by
  have hlt : s.position < all.length :=
    (List.getElem?_eq_some_iff.mp h.covers.getElem?_current).1
  have hlt' : place < r.tokens.length := by
    rw [h.tokens_eq]
    exact Nat.lt_of_le_of_lt hle hlt
  exact ⟨_, look_eq place (List.getElem?_eq_getElem hlt')⟩

theorem previous (h : Follows all s depth r) : ∃ t, previous r = .ok t r := by
  refine h.look_of_le (r.now.cursor - 1) ?_
  rw [h.now_eq]
  exact Nat.sub_le s.position 1

theorem peek (h : Follows all s depth r) : peek r = .ok s.current r := by
  refine look_eq r.now.cursor ?_
  rw [h.tokens_eq, h.now_eq]
  exact h.covers.getElem?_current

/-- A further moment is safe if it keeps to the end and the limit. -/
theorem moveTo (h : Follows all s depth r) {cut : List Token} {next : Nat}
    (hcut : cut <:+ s.pending) (hnext : next ≤ nestingLimit) :
    Follows all (s.moveTo cut) next (r.moveTo ⟨(s.moveTo cut).position, next⟩) := by
  have hend := TokenStream.end_moveTo hcut.length_le
  refine ⟨h.tokens_eq, h.covers.moveTo hcut, rfl, fun m hm => ?_⟩
  rw [hend]
  rcases List.mem_cons.mp hm with rfl | hm
  · refine ⟨?_, hnext⟩
    show (s.moveTo cut).position ≤ _
    omega
  · exact h.within m hm

theorem depth_le (h : Follows all s depth r) : depth ≤ nestingLimit := by
  have hnow := (h.within r.now List.mem_cons_self).2
  rwa [h.now_eq] at hnow

theorem taken (h : Follows all s depth r) (hp : s.pending = t :: rest) :
    Follows all (s.moveTo rest) depth r.taken := by
  have hmoved := h.moveTo (hp ▸ List.suffix_cons t rest) h.depth_le
  have hposition : (s.moveTo rest).position = s.position + 1 :=
    TokenStream.moveTo_position (show s.pending = [t] ++ rest from hp)
  rw [hposition] at hmoved
  rw [Reader.taken, h.now_eq]
  exact hmoved

theorem opened (h : Follows all s depth r) (hlt : depth < nestingLimit) :
    Follows all s (depth + 1) r.opened := by
  have hmoved := h.moveTo (List.suffix_refl s.pending) hlt
  rw [TokenStream.moveTo_pending] at hmoved
  rw [Reader.opened, h.now_eq]
  exact hmoved

theorem closed (h : Follows all s (depth + 1) r) : Follows all s depth r.closed := by
  have hmoved := h.moveTo (List.suffix_refl s.pending) (Nat.le_of_succ_le h.depth_le)
  rw [TokenStream.moveTo_pending] at hmoved
  rw [Reader.closed, h.now_eq]
  exact hmoved

theorem previous_taken (h : Follows all s depth r) (hp : s.pending = t :: rest) :
    Reader.previous r.taken = .ok t r.taken := by
  refine look_eq (r.taken.now.cursor - 1) ?_
  show r.tokens[r.now.cursor + 1 - 1]? = some t
  rw [h.tokens_eq, h.now_eq, Nat.add_sub_cancel, h.covers.getElem?_current,
    TokenStream.current_cons hp]

theorem advance_cons (h : Follows all s depth r) (hp : s.pending = t :: rest) :
    advance r = .ok t r.taken := by
  have hne : s.current.kind ≠ .eof := by
    rw [TokenStream.current_cons hp]
    exact h.covers.kind_ne_eof t (hp ▸ List.mem_cons_self)
  unfold advance
  rw [bind_of_ok h.peek, if_neg hne, bind_of_ok (modify_eq Reader.taken r)]
  exact h.previous_taken hp

theorem advance_nil (h : Follows all s depth r) (hp : s.pending = []) :
    ∃ t, advance r = .ok t r := by
  have heof : s.current.kind = .eof := by
    rw [TokenStream.current_nil hp]
    exact h.covers.stop_kind
  unfold advance
  rw [bind_of_ok h.peek, if_pos heof]
  exact h.previous

theorem accept_cons (h : Follows all s depth r) (hp : s.pending = t :: rest)
    (hwanted : wanted t.kind = true) : accept wanted r = .ok true r.taken := by
  have hcurrent := TokenStream.current_cons hp
  have hne := h.covers.kind_ne_eof t (hp ▸ List.mem_cons_self)
  unfold accept
  rw [bind_of_ok h.peek, hcurrent, if_pos ⟨hne, hwanted⟩, bind_of_ok (h.advance_cons hp)]
  rfl

theorem accept_not (h : Follows all s depth r) (hwanted : wanted s.current.kind = false) :
    accept wanted r = .ok false r := by
  unfold accept
  rw [bind_of_ok h.peek, if_neg (fun hc => Bool.false_ne_true (hwanted.symm.trans hc.2))]
  rfl

theorem accept_kind (h : Follows all s depth r) (hp : s.pending = t :: rest) {kind : Kind}
    (hkind : t.kind = kind) : accept (· == kind) r = .ok true r.taken :=
  h.accept_cons hp (by simp [hkind])

theorem accept_other (h : Follows all s depth r) {kind : Kind} (hkind : s.current.kind ≠ kind) :
    accept (· == kind) r = .ok false r :=
  h.accept_not (by simpa using hkind)

theorem consume_cons (h : Follows all s depth r) (hp : s.pending = t :: rest)
    (fault : ParseFault) : consume t.kind fault r = .ok t r.taken := by
  have hne := h.covers.kind_ne_eof t (hp ▸ List.mem_cons_self)
  unfold consume
  rw [bind_of_ok h.peek, TokenStream.current_cons hp, if_pos ⟨hne, rfl⟩]
  exact h.advance_cons hp

theorem consume_other (h : Follows all s depth r) {kind : Kind} (hkind : s.current.kind ≠ kind)
    (fault : ParseFault) : consume kind fault r = .error (.fault ⟨s.current, fault⟩) r := by
  unfold consume
  rw [bind_of_ok h.peek, if_neg (fun hc => hkind hc.2)]
  rfl

/-! ### Primaries -/

theorem primary_literal_of_kind (h : Follows all s depth r) (hp : s.pending = t :: rest)
    (hkind : t.kind = .number ∨ t.kind = .string) (expression : Rule Expr) :
    primary expression r =
      match t.literal with
      | some v => .ok (.literal v) r.taken
      | none => .error (.fault ⟨t, .missingLiteral⟩) r.taken := by
  have hother : ∀ kind : Kind, kind ≠ .number → kind ≠ .string → s.current.kind ≠ kind := by
    rintro _ hnumber hstring rfl
    rw [TokenStream.current_cons hp] at hnumber hstring
    exact hkind.elim hnumber hstring
  unfold primary
  rw [ite_of_not_accept (h.accept_other (hother _ (by decide) (by decide))),
    ite_of_not_accept (h.accept_other (hother _ (by decide) (by decide))),
    ite_of_not_accept (h.accept_other (hother _ (by decide) (by decide))),
    ite_of_accept (h.accept_cons hp (by simpa using hkind)), bind_of_ok (h.previous_taken hp)]
  cases t.literal <;> rfl

theorem primary_operand (h : Follows all s depth r) (hp : s.pending = t :: rest) {v : Value}
    (hv : t.operand? = some v) (expression : Rule Expr) :
    primary expression r = .ok (.literal v) r.taken := by
  have hcurrent := TokenStream.current_cons hp
  unfold Token.operand? at hv
  split at hv
  · rename_i hk
    cases hv
    unfold primary
    rw [ite_of_accept (h.accept_kind hp hk)]
    rfl
  · rename_i hk
    cases hv
    unfold primary
    rw [ite_of_not_accept (h.accept_other (by simp [hcurrent, hk])),
      ite_of_accept (h.accept_kind hp hk)]
    rfl
  · rename_i hk
    cases hv
    unfold primary
    rw [ite_of_not_accept (h.accept_other (by simp [hcurrent, hk])),
      ite_of_not_accept (h.accept_other (by simp [hcurrent, hk])),
      ite_of_accept (h.accept_kind hp hk)]
    rfl
  · rename_i hk
    rw [h.primary_literal_of_kind hp (.inl hk), hv]
  · rename_i hk
    rw [h.primary_literal_of_kind hp (.inr hk), hv]
  · cases hv

theorem primary_group (h : Follows all s depth r) (hp : s.pending = t :: rest)
    (hkind : t.kind = .leftParen) (expression : Rule Expr) :
    primary expression r =
      (do
        let inner ← nested expression
        let _ ← consume .rightParen .unclosedGroup
        return .grouping inner : Rule Expr) r.taken := by
  have hcurrent : s.current.kind = .leftParen := by
    rw [TokenStream.current_cons hp, hkind]
  unfold primary
  rw [ite_of_not_accept (h.accept_other (by simp [hcurrent])),
    ite_of_not_accept (h.accept_other (by simp [hcurrent])),
    ite_of_not_accept (h.accept_other (by simp [hcurrent])),
    ite_of_not_accept (h.accept_not (by simp [hcurrent])),
    ite_of_accept (h.accept_kind hp hkind)]

theorem primary_other (h : Follows all s depth r) (hgroup : s.current.kind ≠ .leftParen)
    (hliteral : ¬(s.current.kind = .number ∨ s.current.kind = .string))
    (hoperand : s.current.operand? = none) (expression : Rule Expr) :
    primary expression r = .error (.fault ⟨s.current, .missingExpression⟩) r := by
  -- The words for values are operands, so they are excluded too.
  have hconstants : s.current.kind ≠ .kwFalse ∧ s.current.kind ≠ .kwTrue ∧
      s.current.kind ≠ .kwNil := by
    refine ⟨?_, ?_, ?_⟩ <;> intro hk <;> simp [Token.operand?, hk] at hoperand
  unfold primary
  rw [ite_of_not_accept (h.accept_other hconstants.1),
    ite_of_not_accept (h.accept_other hconstants.2.1),
    ite_of_not_accept (h.accept_other hconstants.2.2),
    ite_of_not_accept (h.accept_not (by simpa using hliteral)),
    ite_of_not_accept (h.accept_other hgroup), bind_of_ok h.peek]
  rfl

end Follows

end Reader

end LoxCalc
