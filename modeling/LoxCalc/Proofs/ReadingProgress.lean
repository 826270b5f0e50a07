import LoxCalc.Proofs.DescentAgreement
import LoxCalc.Diagnostic

/-!
# LoxCalc.Proofs.ReadingProgress

Reading again and again from any list of tokens is safe and comes to an end
(`Reader.readings_safe`).

The *wall* of a list is the place of the first end of the input. How far a stream has come
and how much is pending add up to it (`TokenStream.end_after`), and every reading before the
wall leaves less pending (`TokenStream.read_moves`). A reader follows the stream of its list
through all readings (`Reader.follows_after`), so it never passes the wall.
-/

namespace LoxCalc

/-! ### Every reading moves on -/

theorem Derives.length_pos {n : Nat} {ts : List Token} {e : Expr} (h : Derives n ts e) :
    0 < ts.length := by
  induction h with
  | tighter _ ih => exact ih
  | binary _ _ _ ihl _ =>
      rw [List.length_append]
      exact Nat.add_pos_left ihl _
  | unary | grouping | literal => exact Nat.succ_pos _

/-- Whatever a failed reading has left over, recovery leaves less than there was. -/
theorem length_recover_lt {tokens rest : List Token} (hne : tokens ≠ [])
    (h : rest <:+ tokens) : (recover rest).2.length < tokens.length := by
  cases rest with
  | nil => exact List.length_pos_iff.mpr hne
  | cons t rest =>
      have hothers : (skipToStatement t rest).2 <:+ rest := ⟨_, skipToStatement_append t rest⟩
      exact Nat.lt_of_le_of_lt hothers.length_le h.length_le

namespace TokenStream

variable {s : TokenStream} {tokens before tail : List Token} {stop : Token}

/-- A reading leaves the stream at an end of what was pending, and before the wall at a
shorter one. -/
theorem read_moves (s : TokenStream) :
    ∃ rest, s.read.stream = s.moveTo rest ∧ rest <:+ s.pending ∧
      (s.pending ≠ [] → rest.length < s.pending.length) := by
  unfold read
  split
  · rename_i tree rest hread
    obtain ⟨ts, hsplit, hsentence, -⟩ := readExpr_eq_ok_iff.mp hread
    refine ⟨rest, rfl, ⟨ts, hsplit.symm⟩, fun _ => ?_⟩
    have hpos := hsentence.derives.length_pos
    rw [hsplit, List.length_append]
    omega
  · rename_i failure hread
    have hsuffix := State.run_failure_suffix hread
    exact ⟨_, rfl, (recover_suffix failure.rest).trans hsuffix,
      fun hne => length_recover_lt hne hsuffix⟩

/-- What is pending after some readings was pending before them. -/
theorem pending_after_suffix (s : TokenStream) (n : Nat) : (s.after n).pending <:+ s.pending := by
  induction n with
  | zero => exact List.suffix_refl _
  | succ n ih =>
      obtain ⟨rest, hmoved, hsuffix, -⟩ := read_moves (s.after n)
      rw [after, hmoved]
      exact hsuffix.trans ih

/-- At the wall, an expression is missing, and the stream stays. -/
theorem read_of_pending_nil (h : s.pending = []) :
    s.read.outcome = .error ⟨s.stop, .missingExpression⟩ ∧ s.read.stream = s := by
  have hread : readExpr s.pending = .error ⟨.missingExpression, none, []⟩ := by
    rw [h]
    rfl
  have hmoved : s.moveTo [] = s := by
    rw [← h]
    exact moveTo_pending
  unfold read
  rw [hread]
  exact ⟨rfl, hmoved⟩

/-! ### The wall -/

/-- The place of the first end of the input. -/
def wall (tokens : List Token) : Nat := (closed tokens).findIdx (·.kind == .eof)

theorem wall_of_closed (hsplit : closed tokens = before ++ stop :: tail)
    (hbefore : ∀ t ∈ before, t.kind ≠ .eof) (hstop : stop.kind = .eof) :
    wall tokens = before.length := by
  have hindex : before.findIdx (·.kind == .eof) = before.length := by
    simpa [List.findIdx_eq_length] using hbefore
  rw [wall, hsplit, List.findIdx_append, hindex, if_neg (Nat.lt_irrefl _), List.findIdx_cons]
  simp [hstop]

theorem end_after (tokens : List Token) (n : Nat) :
    ((ofTokens tokens).after n).position + ((ofTokens tokens).after n).pending.length =
      wall tokens := by
  induction n with
  | zero =>
      obtain ⟨before, stop, tail, hsplit, hbefore, hstop⟩ := exists_closed_eq tokens
      rw [after, ofTokens_of_closed hsplit hbefore hstop, wall_of_closed hsplit hbefore hstop]
      exact Nat.zero_add before.length
  | succ n ih =>
      obtain ⟨rest, hmoved, hsuffix, -⟩ := read_moves ((ofTokens tokens).after n)
      rw [after, hmoved, end_moveTo hsuffix.length_le, ih]

theorem wall_lt_length (tokens : List Token) : wall tokens < (closed tokens).length := by
  obtain ⟨before, stop, tail, hsplit, hbefore, hstop⟩ := exists_closed_eq tokens
  rw [wall_of_closed hsplit hbefore hstop, hsplit, List.length_append, List.length_cons]
  omega

/-- Each reading takes one token at least, until there are none before the wall. -/
theorem le_position_after (tokens : List Token) (n : Nat) :
    min n (wall tokens) ≤ ((ofTokens tokens).after n).position := by
  induction n with
  | zero => simp
  | succ n ih =>
      -- Position and pending tokens add up to the wall before and after the reading.
      have hend := end_after tokens n
      have hend' := end_after tokens (n + 1)
      obtain ⟨rest, hmoved, hsuffix, hshorter⟩ := read_moves ((ofTokens tokens).after n)
      have hle := hsuffix.length_le
      have hpending : ((ofTokens tokens).after (n + 1)).pending = rest := by
        rw [after, hmoved]
        rfl
      rw [hpending] at hend'
      by_cases hnil : ((ofTokens tokens).after n).pending = []
      · rw [hnil, List.length_nil] at hend hle
        omega
      · have hlt := hshorter hnil
        omega

/-! ### What stands behind the wall -/

/-- The stream with another count of tokens in all. -/
def resized (size : Nat) (s : TokenStream) : TokenStream := { s with size := size }

theorem read_resized (size : Nat) (s : TokenStream) :
    (s.resized size).read = { s.read with stream := s.read.stream.resized size } := by
  have hpending : (s.resized size).pending = s.pending := rfl
  unfold read
  rw [hpending]
  cases readExpr s.pending <;> rfl

theorem after_resized (size : Nat) (s : TokenStream) (n : Nat) :
    (s.resized size).after n = (s.after n).resized size := by
  induction n with
  | zero => rfl
  | succ n ih => rw [after, ih, read_resized, after]

/-- Lists with the same tokens up to the wall are read alike. -/
theorem after_of_take_eq {other : List Token}
    (h : (closed other).take (wall tokens + 1) = (closed tokens).take (wall tokens + 1)) (n : Nat) :
    (ofTokens other).after n =
      ((ofTokens tokens).after n).resized (closed other).length := by
  obtain ⟨before, stop, tail, hsplit, hbefore, hstop⟩ := exists_closed_eq tokens
  have htake : (closed tokens).take (wall tokens + 1) = before ++ [stop] := by
    rw [wall_of_closed hsplit hbefore hstop, hsplit, List.take_length_add_append,
      List.take_succ_cons, List.take_zero]
  -- The other list is split at the same place, so the streams differ in the count only.
  have hother : closed other = before ++ stop :: (closed other).drop (wall tokens + 1) := by
    rw [← List.singleton_append, ← List.append_assoc, ← htake, ← h, List.take_append_drop]
  rw [← after_resized, ofTokens_of_closed hsplit hbefore hstop,
    ofTokens_of_closed hother hbefore hstop]
  rfl

end TokenStream

/-- An expression that is missing at the end of the input. -/
theorem Diagnostic.text_missingExpression {t : Token} (h : t.kind = .eof) :
    (parse ⟨t, .missingExpression⟩).text =
      "[line " ++ t.line.repr ++ "] Error at end: Expect expression." := by
  have hlocation : t.location = " at end" := by rw [Token.location, if_pos h]
  show "[line " ++ t.line.repr ++ "] Error" ++ t.location ++ ": " ++ "Expect expression." = _
  rw [hlocation]
  simp only [String.append_assoc]
  rfl

namespace Reader

theorem after_succ {r next : Reader} {n : Nat} {outcome : Except ParseError Expr}
    (h : parse (r.after n) = resultOf outcome next) : r.after (n + 1) = next := by
  unfold after
  rw [h]
  cases outcome <;> rfl

/-- Through all readings, a reader follows the stream of its tokens. -/
theorem follows_after (tokens : List Token) (n : Nat) :
    Follows (TokenStream.closed tokens) ((TokenStream.ofTokens tokens).after n) 0
      ((ofTokens tokens).after n) := by
  induction n with
  | zero =>
      refine ⟨rfl, TokenStream.covers_ofTokens tokens, rfl, fun m hm => ?_⟩
      obtain rfl := List.mem_singleton.mp hm
      exact ⟨Nat.zero_le _, Nat.zero_le _⟩
  | succ n ih =>
      obtain ⟨next, hparse, hfollows⟩ := parse_follows ih
      rw [after_succ hparse]
      exact hfollows

theorem parse_after (tokens : List Token) (n : Nat) :
    parse ((ofTokens tokens).after n) =
      resultOf ((TokenStream.ofTokens tokens).after n).read.outcome
        ((ofTokens tokens).after (n + 1)) := by
  obtain ⟨next, hparse, -⟩ := parse_follows (follows_after tokens n)
  rw [after_succ hparse]
  exact hparse

/-- Any number of readings from any tokens. All along, the cursor is at the wall or before
it and the nesting within its limit, and between readings no level is open. A reading gives
a tree or a fault, as the stream does; it looks at no place without a token. Before the wall
it moves on, and at the wall it gives just the missing expression and stays. So the wall is
reached after as many readings as there are tokens before it. What stands behind the wall
has no part in that. -/
theorem readings_safe (tokens : List Token) (n : Nat) :
    let all := TokenStream.closed tokens
    let wall := TokenStream.wall tokens
    let stream := (TokenStream.ofTokens tokens).after n
    let reader := (ofTokens tokens).after n
    let next := (ofTokens tokens).after (n + 1)
    (reader.tokens = all ∧ wall < all.length ∧
      ∀ m ∈ reader.moments, m.cursor ≤ wall ∧ m.depth ≤ nestingLimit) ∧
    reader.now = ⟨stream.position, 0⟩ ∧
    parse reader = resultOf stream.read.outcome next ∧
    (∃ t, all[reader.now.cursor]? = some t ∧
      (t.kind ≠ .eof → reader.now.cursor < next.now.cursor) ∧
      (t.kind = .eof → next.now = reader.now ∧
        ∃ error, stream.read.outcome = .error error ∧ error.token = t ∧
          error.message = "Expect expression." ∧
          (Diagnostic.parse error).text =
            "[line " ++ t.line.repr ++ "] Error at end: Expect expression.")) ∧
    (wall ≤ n → reader.now.cursor = wall) ∧
    ∀ other, (TokenStream.closed other).take (wall + 1) = all.take (wall + 1) →
      ((TokenStream.ofTokens other).after n).read.outcome = stream.read.outcome ∧
        ((ofTokens other).after n).now = reader.now := by
  intro all wall stream reader next
  have hfollows : Follows all stream 0 reader := follows_after tokens n
  have hend : stream.position + stream.pending.length = wall := TokenStream.end_after tokens n
  have hnow := hfollows.now_eq
  have hcursor : reader.now.cursor = stream.position := by rw [hnow]
  have hnext : next.now = ⟨stream.read.stream.position, 0⟩ :=
    (follows_after tokens (n + 1)).now_eq
  refine ⟨⟨hfollows.tokens_eq, TokenStream.wall_lt_length tokens, ?_⟩, hnow, parse_after tokens n,
    ⟨stream.current, ?_, fun hne => ?_, fun heof => ?_⟩, fun hle => ?_, fun other hother => ?_⟩
  · rw [← hend]
    exact hfollows.within
  · rw [hcursor]
    exact hfollows.covers.getElem?_current
  · obtain ⟨rest, hmoved, hsuffix, hshorter⟩ := TokenStream.read_moves stream
    obtain ⟨_, hp⟩ := hfollows.covers.pending_eq hne
    have hlt := hshorter (by rw [hp]; exact List.cons_ne_nil _ _)
    rw [hnext, hcursor, hmoved]
    show stream.position < stream.position + (stream.pending.length - rest.length)
    omega
  · obtain ⟨hp, hstop⟩ := hfollows.covers.at_end heof
    obtain ⟨houtcome, hstays⟩ := TokenStream.read_of_pending_nil hp
    refine ⟨by rw [hnext, hnow, hstays], _, houtcome, hstop.symm, rfl, ?_⟩
    rw [← hstop]
    exact Diagnostic.text_missingExpression heof
  · have hreached : min n wall ≤ stream.position := TokenStream.le_position_after tokens n
    rw [hcursor]
    omega
  · have hstream := TokenStream.after_of_take_eq hother n
    have hsame : ((ofTokens other).after n).now = ⟨stream.position, 0⟩ := by
      rw [(follows_after other n).now_eq, hstream]
      rfl
    refine ⟨?_, hsame.trans hnow.symm⟩
    rw [hstream, TokenStream.read_resized]

/-- The `nil` behind an end of the input is never reached. -/
example :
    let tokens : List Token := [⟨.minus, "-", none, 1⟩, .endOfInput 1, ⟨.kwNil, "nil", none, 2⟩]
    (List.range 3).map (fun n => ((ofTokens tokens).after n).now.cursor) = [0, 1, 1] := by
  decide

end Reader

end LoxCalc
