import LoxCalc.Proofs.ReadingSentences

/-!
# LoxCalc.Proofs.TokenStreams

Reading one expression after the other from a list of tokens.

A stream that *covers* a list has pending what the list holds from the stream's
position to the first end of the input. Streams begin like that and stay so
(`covers_after`), so a reading is settled by the list and the position it begins at:
`read_ok_iff_sentence` tells when it succeeds, with which tree, and where it ends.
-/

namespace LoxCalc

/-! ### What is left over is the end of the input given -/

theorem State.run_failure_suffix {s : State} {input : List Token} {failure : Failure}
    (h : s.run input = .error failure) : failure.rest <:+ input := by
  induction input generalizing s with
  | nil =>
      unfold run at h
      split at h
      · cases h
      · simp only [Except.error.injEq] at h
        exact h ▸ List.suffix_refl []
  | cons t input ih =>
      unfold run at h
      split at h
      · exact (ih h).trans (List.suffix_cons t input)
      · cases h
      · rename_i fault taken _
        simp only [Except.error.injEq] at h
        subst h
        cases taken with
        | true => exact List.suffix_cons t input
        | false => exact List.suffix_refl _

theorem recover_suffix (tokens : List Token) : (recover tokens).2 <:+ tokens := by
  cases tokens with
  | nil => exact List.suffix_refl []
  | cons t rest =>
      have hskip : (skipToStatement t rest).2 <:+ rest := ⟨_, skipToStatement_append t rest⟩
      exact hskip.trans (List.suffix_cons t rest)

namespace TokenStream

/-! ### Moves -/

section Moves

variable {rest : List Token} {s : TokenStream} {t : Token}

theorem current_cons (h : s.pending = t :: rest) : s.current = t := by
  rw [current, h]
  rfl

theorem current_nil (h : s.pending = []) : s.current = s.stop := by
  rw [current, h]
  rfl

theorem moveTo_position {used : List Token} (h : s.pending = used ++ rest) :
    (s.moveTo rest).position = s.position + used.length := by
  simp [moveTo, h]

/-- A move to fewer pending tokens leaves the place of the end as it is. -/
theorem end_moveTo (h : rest.length ≤ s.pending.length) :
    (s.moveTo rest).position + (s.moveTo rest).pending.length =
      s.position + s.pending.length := by
  show s.position + (s.pending.length - rest.length) + rest.length = _
  omega

theorem moveTo_moveTo {more : List Token} (h : rest.length ≤ s.pending.length)
    (hmore : more.length ≤ rest.length) : (s.moveTo rest).moveTo more = s.moveTo more := by
  simp only [moveTo, mk.injEq, and_true]
  omega

theorem moveTo_pending : s.moveTo s.pending = s := by
  rw [moveTo, Nat.sub_self, Nat.add_zero]

end Moves

/-! ### Streams over a list of tokens -/

/-- The stream after some readings. -/
def after (s : TokenStream) : Nat → TokenStream
  | 0 => s
  | n + 1 => (s.after n).read.stream

/-- The stream stands in the list: what is pending, and the token that ends it, follow
the stream's position there. -/
structure Covers (all : List Token) (s : TokenStream) : Prop where
  ahead : ∃ tail, all.drop s.position = s.pending ++ s.stop :: tail
  kind_ne_eof : ∀ t ∈ s.pending, t.kind ≠ .eof
  stop_kind : s.stop.kind = .eof

theorem exists_eof_closed (tokens : List Token) : ∃ t ∈ closed tokens, t.kind = .eof := by
  unfold closed
  split
  · exact ⟨_, List.mem_singleton_self _, rfl⟩
  · rename_i last hlast
    split
    · rename_i heof
      exact ⟨last, List.mem_of_getLast? hlast, heof⟩
    · exact ⟨_, List.mem_append_right _ (List.mem_singleton_self _), rfl⟩

theorem exists_closed_eq (tokens : List Token) :
    ∃ before stop tail, closed tokens = before ++ stop :: tail ∧
      (∀ t ∈ before, t.kind ≠ .eof) ∧ stop.kind = .eof := by
  obtain ⟨t, ht, heof⟩ := exists_eof_closed tokens
  have hsome : ((closed tokens).find? (·.kind == .eof)).isSome := by
    rw [List.find?_isSome]
    exact ⟨t, ht, by simp [heof]⟩
  obtain ⟨stop, hfind⟩ := Option.isSome_iff_exists.mp hsome
  obtain ⟨hstop, before, tail, hsplit, hbefore⟩ := List.find?_eq_some_iff_append.mp hfind
  exact ⟨before, stop, tail, hsplit, by simpa using hbefore, by simpa using hstop⟩

/-- The tokens before the first end of the input and that end are all that a stream has of
its list, apart from its length. -/
theorem ofTokens_of_closed {tokens before tail : List Token} {stop : Token}
    (hsplit : closed tokens = before ++ stop :: tail) (hbefore : ∀ t ∈ before, t.kind ≠ .eof)
    (hstop : stop.kind = .eof) : ofTokens tokens = ⟨0, before, stop, (closed tokens).length⟩ := by
  have hne : ∀ t ∈ before, (t.kind != .eof) = true := by simpa using hbefore
  have hnone : before.find? (·.kind == .eof) = none := by simpa using hbefore
  rw [ofTokens, hsplit, List.takeWhile_append_of_pos hne,
    List.takeWhile_cons_of_neg (by simp [hstop]), List.append_nil, List.find?_append, hnone,
    List.find?_cons_of_pos (by simp [hstop])]
  rfl

theorem covers_ofTokens (tokens : List Token) : Covers (closed tokens) (ofTokens tokens) := by
  obtain ⟨before, stop, tail, hsplit, hbefore, hstop⟩ := exists_closed_eq tokens
  rw [ofTokens_of_closed hsplit hbefore hstop]
  exact ⟨⟨tail, hsplit⟩, hbefore, hstop⟩

theorem Covers.moveTo {all : List Token} {s : TokenStream} {rest : List Token}
    (h : s.Covers all) (hrest : rest <:+ s.pending) : (s.moveTo rest).Covers all := by
  obtain ⟨used, hused⟩ := hrest
  obtain ⟨tail, htail⟩ := h.ahead
  refine ⟨⟨tail, ?_⟩, ?_, h.stop_kind⟩
  · rw [moveTo_position hused.symm, ← List.drop_drop, htail, ← hused, List.append_assoc,
      List.drop_left]
    rfl
  · intro t ht
    exact h.kind_ne_eof t (hused ▸ List.mem_append_right used ht)

/-- A reading keeps the stream in its list, however it ends. -/
theorem Covers.read {all : List Token} {s : TokenStream} (h : s.Covers all) :
    s.read.stream.Covers all := by
  unfold TokenStream.read
  split
  · rename_i tree rest hread
    obtain ⟨ts, hsplit, -⟩ := readExpr_eq_ok_iff.mp hread
    exact h.moveTo ⟨ts, hsplit.symm⟩
  · rename_i failure hread
    exact h.moveTo ((recover_suffix failure.rest).trans (State.run_failure_suffix hread))

theorem covers_after (tokens : List Token) (n : Nat) :
    ((ofTokens tokens).after n).Covers (closed tokens) := by
  induction n with
  | zero => exact covers_ofTokens tokens
  | succ n ih => exact ih.read

/-- The stream of tokens that end with the only end of the input. -/
theorem ofTokens_append_eof {ts : List Token} {stop : Token} (hts : ∀ t ∈ ts, t.kind ≠ .eof)
    (hstop : stop.kind = .eof) : ofTokens (ts ++ [stop]) = ⟨0, ts, stop, ts.length + 1⟩ := by
  have hclosed : closed (ts ++ [stop]) = ts ++ [stop] := by
    simp [closed, hstop]
  rw [ofTokens_of_closed hclosed hts hstop, hclosed, List.length_append, List.length_singleton]

/-! ### When a reading succeeds -/

/-- The tokens of a list from one position up to another. -/
def between (all : List Token) (i j : Nat) : List Token := (all.drop i).take (j - i)

theorem Covers.between_position {all used rest : List Token} {s : TokenStream}
    (h : s.Covers all) (hused : s.pending = used ++ rest) :
    between all s.position (s.position + used.length) = used := by
  obtain ⟨tail, htail⟩ := h.ahead
  rw [between, htail, hused, Nat.add_sub_cancel_left, List.append_assoc, List.take_left]

/-- The token after the used ones is the first of the rest, or else the one that ends
the stream. -/
theorem Covers.getElem?_position {all used rest : List Token} {s : TokenStream}
    (h : s.Covers all) (hused : s.pending = used ++ rest) :
    all[s.position + used.length]? = some (rest.head?.getD s.stop) := by
  obtain ⟨tail, htail⟩ := h.ahead
  rw [← List.getElem?_drop, htail, hused, List.append_assoc,
    List.getElem?_append_right (Nat.le_refl _), Nat.sub_self]
  cases rest <;> rfl

theorem Covers.getElem?_current {all : List Token} {s : TokenStream} (h : s.Covers all) :
    all[s.position]? = some s.current :=
  h.getElem?_position (List.nil_append s.pending).symm

/-- Only the token that ends the stream stands for the end of the input. -/
theorem Covers.at_end {all : List Token} {s : TokenStream} (h : s.Covers all)
    (heof : s.current.kind = .eof) : s.pending = [] ∧ s.current = s.stop := by
  cases hp : s.pending with
  | nil => exact ⟨rfl, current_nil hp⟩
  | cons t rest =>
      rw [current_cons hp] at heof
      exact absurd heof (h.kind_ne_eof t (hp ▸ List.mem_cons_self))

theorem Covers.pending_eq {all : List Token} {s : TokenStream} (h : s.Covers all)
    (hne : s.current.kind ≠ .eof) : ∃ rest, s.pending = s.current :: rest := by
  cases hp : s.pending with
  | nil => exact absurd h.stop_kind (current_nil hp ▸ hne)
  | cons t rest => exact ⟨rest, by rw [current_cons hp]⟩

/-- Tokens without the end of the input, from the position on, are pending. -/
theorem Covers.pending_eq_between {all : List Token} {s : TokenStream} (h : s.Covers all)
    {j : Nat} (hle : s.position ≤ j) (hne : ∀ t ∈ between all s.position j, t.kind ≠ .eof) :
    ∃ rest, s.pending = between all s.position j ++ rest ∧
      j = s.position + (between all s.position j).length := by
  obtain ⟨tail, htail⟩ := h.ahead
  have hshort : j - s.position ≤ s.pending.length := by
    refine Nat.not_lt.mp fun hlong => hne s.stop ?_ h.stop_kind
    obtain ⟨k, hk⟩ := Nat.exists_eq_add_of_lt hlong
    rw [between, htail, List.take_append]
    refine List.mem_append_right _ ?_
    rw [show j - s.position - s.pending.length = k + 1 by omega, List.take_succ_cons]
    exact List.mem_cons_self
  rw [between, htail, List.take_append_of_le_length hshort]
  refine ⟨s.pending.drop (j - s.position), (List.take_append_drop ..).symm, ?_⟩
  rw [List.length_take_of_le hshort]
  omega

/-- A reading from a list of tokens succeeds with a tree and ends at `j` just if the
tokens from its beginning to `j` are a sentence with that tree and no binary operator
stands at `j`. -/
theorem read_ok_iff_sentence (tokens : List Token) (n : Nat) (e : Expr) (j : Nat) :
    let s := (ofTokens tokens).after n
    s.read.outcome = .ok e ∧ s.read.stream.position = j ↔
      s.position ≤ j ∧ (∀ t ∈ between (closed tokens) s.position j, t.kind ≠ .eof) ∧
        Sentence (between (closed tokens) s.position j) e ∧
        ∃ t, (closed tokens)[j]? = some t ∧ t.kind.binding? = none := by
  intro s
  have hcovers : s.Covers (closed tokens) := covers_after tokens n
  constructor
  · rintro ⟨houtcome, rfl⟩
    unfold read at houtcome ⊢
    split at houtcome
    · rename_i tree rest hread
      cases houtcome
      obtain ⟨ts, hsplit, hsentence, hrest⟩ := readExpr_eq_ok_iff.mp hread
      rw [moveTo_position hsplit, hcovers.between_position hsplit]
      refine ⟨Nat.le_add_right .., hsentence.derives.kind_ne_eof, hsentence, ?_⟩
      refine ⟨_, hcovers.getElem?_position hsplit, ?_⟩
      cases rest with
      | nil => simp [hcovers.stop_kind, Kind.binding?]
      | cons t rest => exact hrest t rfl
    · cases houtcome
  · rintro ⟨hle, hne, hsentence, t, ht, hop⟩
    obtain ⟨rest, hsplit, hj⟩ := hcovers.pending_eq_between hle hne
    have hnext := hcovers.getElem?_position hsplit
    rw [← hj, ht, Option.some.injEq] at hnext
    have hread : readExpr s.pending = .ok (e, rest) := by
      refine readExpr_eq_ok_iff.mpr ⟨_, hsplit, hsentence, ?_⟩
      cases rest with
      | nil => simp
      | cons u rest =>
          obtain rfl : t = u := hnext
          simpa using hop
    unfold read
    rw [hread]
    exact ⟨rfl, by rw [moveTo_position hsplit, ← hj]⟩

end TokenStream

end LoxCalc
