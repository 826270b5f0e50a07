import LoxCalc.Proofs.Grammar
import LoxCalc.Reading.TokenStream

/-!
# LoxCalc.Proofs.ReadingSentences

Reading accepts exactly the sentences of the grammar (`readExpr_eq_ok_iff`).

* **From a sentence to a run**: over the tokens of a phrase of level `n`, a run ends
  holding a tree that *settles* like the phrase's tree at every level up to `n`
  (`run_derives`). Which frames are still on the stack then does not matter.
* **From a run to a sentence**: `Opens n tokens stack` says that the tokens taken so
  far leave the stack open and that a phrase of level `n` may come next. Each step
  keeps this invariant (`State.Explains.advance`).
-/

namespace LoxCalc

/-! ### Settling -/

namespace Frame

/-- May a phrase of level `n` come next on this stack? The innermost frame must bind
more loosely; only a phrase that is no binary operation may follow a prefix operator. -/
def Awaits (n : Nat) : List Frame → Prop
  | [] | group :: _ => True
  | unary _ :: _ => 5 ≤ n
  | binary _ op :: _ => op.kind.binding?.getD 0 < n

theorem Awaits.succ {n : Nat} {stack : List Frame} (h : Awaits n stack) :
    Awaits (n + 1) stack := by
  cases stack with
  | nil => trivial
  | cons frame stack =>
      cases frame with
      | unary op => exact Nat.le_succ_of_le h
      | group => trivial
      | binary l op => exact Nat.lt_succ_of_lt h

/-- A stack that awaits a looser phrase takes no tree at this level. -/
theorem settle_of_awaits {n : Nat} {stack : List Frame} (h : Awaits n stack) (hn : n ≤ 4)
    (e : Expr) : settle n stack e = (stack, e) := by
  cases stack with
  | nil => rfl
  | cons frame stack =>
      cases frame with
      | unary op =>
          have : 5 ≤ n := h
          omega
      | group => rfl
      | binary l op => rw [settle, if_neg (Nat.not_le.mpr h)]

theorem settle_unary (b : Nat) (op : Token) (stack : List Frame) (e : Expr) :
    settle b (unary op :: stack) e = settle b stack (.unary op e) := by
  rw [settle]

/-- An operator takes its right operand at its own level and at all looser ones. -/
theorem settle_binary {b n : Nat} {op : Token} (hop : op.kind.binding? = some n) (hb : b ≤ n)
    (l : Expr) (stack : List Frame) (e : Expr) :
    settle b (binary l op :: stack) e = settle b stack (.binary l op e) := by
  rw [settle, hop, Option.getD_some, if_pos hb]

end Frame

/-! ### From a sentence to a run -/

namespace State

/-- A run goes on after a token that is taken. -/
theorem run_advance {s next : State} {t : Token} (h : s.step t = .advance next)
    (rest : List Token) : s.run (t :: rest) = next.run rest := by
  rw [run, h]

theorem step_openLevel {stack : List Frame} {frame : Frame}
    (h : Frame.depth stack < nestingLimit) :
    openLevel frame stack = .advance (awaiting (frame :: stack)) :=
  if_pos h

theorem step_unary {stack : List Frame} {op : Token} (hop : op.kind.isPrefixOperator)
    (h : Frame.depth stack < nestingLimit) :
    (awaiting stack).step op = .advance (awaiting (.unary op :: stack)) := by
  rw [← step_openLevel h, step, stepOperand]
  cases hk : op.kind <;> simp [hk, Kind.isPrefixOperator] at hop <;> rfl

theorem step_opening {stack : List Frame} {t : Token} (ht : t.kind = .leftParen)
    (h : Frame.depth stack < nestingLimit) :
    (awaiting stack).step t = .advance (awaiting (.group :: stack)) := by
  rw [← step_openLevel h, step, stepOperand, ht]

theorem step_operand {stack : List Frame} {t : Token} {v : Value} (ht : t.operand? = some v) :
    (awaiting stack).step t = .advance (holding stack (.literal v)) := by
  rw [step, stepOperand]
  unfold Token.operand? at ht
  cases hk : t.kind <;> simp [hk] at ht <;> simp [ht]

theorem step_operator {stack outer : List Frame} {e l : Expr} {op : Token} {n : Nat}
    (hop : op.kind.binding? = some n) (hs : Frame.settle n stack e = (outer, l)) :
    (holding stack e).step op = .advance (awaiting (.binary l op :: outer)) := by
  rw [step, stepOperator, hop]
  simp only [hs]

theorem step_closing {stack outer : List Frame} {e inner : Expr} {t : Token}
    (ht : t.kind = .rightParen) (hs : Frame.settle 0 stack e = (.group :: outer, inner)) :
    (holding stack e).step t = .advance (holding outer (.grouping inner)) := by
  rw [step, stepOperator, ht]
  simp only [Kind.binding?, hs, if_true]

/-- Over a phrase of level `n`, a run ends holding a tree that settles like the
phrase's tree at every level up to `n`. -/
theorem run_derives {n : Nat} {ts : List Token} {e : Expr} (h : Derives n ts e)
    (stack : List Frame) (rest : List Token) (hawaits : Frame.Awaits n stack)
    (hdepth : Frame.depth stack + e.nesting ≤ nestingLimit) :
    ∃ stack' e', (awaiting stack).run (ts ++ rest) = (holding stack' e').run rest ∧
      ∀ b ≤ n, Frame.settle b stack' e' = Frame.settle b stack e := by
  -- The induction is on the phrase; the stack is what stands before it, so it changes
  -- with every operand.
  induction h generalizing stack rest with
  | tighter _ ih =>
      obtain ⟨stack', e', hrun, hsettle⟩ := ih stack rest hawaits.succ hdepth
      exact ⟨stack', e', hrun, fun b hb => hsettle b (Nat.le_succ_of_le hb)⟩
  | @binary n ls rs l r op _ hop _ ihl ihr =>
      have hn := (Kind.binding_bounds hop).2
      rw [Expr.nesting] at hdepth
      obtain ⟨stack₁, e₁, hrun₁, hsettle₁⟩ :=
        ihl stack (op :: rs ++ rest) hawaits (by omega)
      have hleft : Frame.settle n stack₁ e₁ = (stack, l) := by
        rw [hsettle₁ n (Nat.le_refl n), Frame.settle_of_awaits hawaits hn]
      obtain ⟨stack₂, e₂, hrun₂, hsettle₂⟩ :=
        ihr (.binary l op :: stack) rest (by simp [Frame.Awaits, hop])
          (by rw [Frame.depth_binary]; omega)
      refine ⟨stack₂, e₂, ?_, ?_⟩
      · rw [List.append_assoc, hrun₁, List.cons_append, run_advance (step_operator hop hleft),
          hrun₂]
      · intro b hb
        rw [hsettle₂ b (Nat.le_succ_of_le hb), Frame.settle_binary hop hb]
  | @unary ts e op hop _ ih =>
      rw [Expr.nesting] at hdepth
      obtain ⟨stack', e', hrun, hsettle⟩ :=
        ih (.unary op :: stack) rest (Nat.le_refl 5) (by rw [Frame.depth_unary]; omega)
      refine ⟨stack', e', ?_, ?_⟩
      · rw [List.cons_append, run_advance (step_unary hop (by omega)), hrun]
      · intro b hb
        rw [hsettle b hb, Frame.settle_unary]
  | @grouping ts e opening closing hopen _ hclose ih =>
      rw [Expr.nesting] at hdepth
      obtain ⟨stack', e', hrun, hsettle⟩ :=
        ih (.group :: stack) (closing :: rest) trivial (by rw [Frame.depth_group]; omega)
      have hinner : Frame.settle 0 stack' e' = (.group :: stack, e) :=
        hsettle 0 (Nat.zero_le 1)
      refine ⟨stack, .grouping e, ?_, fun b _ => rfl⟩
      rw [List.cons_append, run_advance (step_opening hopen (by omega)), List.append_assoc,
        List.singleton_append, hrun, run_advance (step_closing hclose hinner)]
  | @literal t v hv =>
      exact ⟨stack, .literal v, run_advance (step_operand hv) rest, fun b _ => rfl⟩

end State

/-- A sentence is read as its tree, if no binary operator follows it. -/
theorem readExpr_sentence {ts rest : List Token} {e : Expr} (h : Sentence ts e)
    (hrest : ∀ t ∈ rest.head?, t.kind.binding? = none) :
    readExpr (ts ++ rest) = .ok (e, rest) := by
  obtain ⟨stack, e', hrun, hsettle⟩ :=
    State.run_derives h.derives [] rest trivial (by simpa using h.nesting_le)
  have hend : Frame.settle 0 stack e' = ([], e) := hsettle 0 (Nat.zero_le 1)
  rw [readExpr, hrun]
  cases rest with
  | nil => simp only [State.run, State.finish, hend]
  | cons t rest =>
      have ht : t.kind.binding? = none := hrest t rfl
      simp only [State.run, State.step, State.stepOperator, ht, hend]

/-! ### From a run to a sentence -/

/-- The tokens leave the stack open, and a phrase of level `n` may come next. Within
the limit of nesting, every left operand is a phrase of its operator's level. -/
inductive Opens : Nat → List Token → List Frame → Prop where
  | start : Opens 1 [] []
  | unary {n : Nat} {ts : List Token} {stack : List Frame} {op : Token}
      (outer : Opens n ts stack) (isPrefix : op.kind.isPrefixOperator)
      (depth_lt : Frame.depth stack < nestingLimit) :
      Opens 5 (ts ++ [op]) (.unary op :: stack)
  | group {n : Nat} {ts : List Token} {stack : List Frame} {t : Token}
      (outer : Opens n ts stack) (opens : t.kind = .leftParen)
      (depth_lt : Frame.depth stack < nestingLimit) : Opens 1 (ts ++ [t]) (.group :: stack)
  | binary {b n : Nat} {ts ls : List Token} {stack : List Frame} {l : Expr} {op : Token}
      (outer : Opens n ts stack) (left : Derives b ls l) (level_le : n ≤ b)
      (binding : op.kind.binding? = some b)
      (depth_le : Frame.depth stack + l.nesting ≤ nestingLimit) :
      Opens (b + 1) (ts ++ ls ++ [op]) (.binary l op :: stack)

theorem Opens.level_le_five {n : Nat} {ts : List Token} {stack : List Frame}
    (h : Opens n ts stack) : n ≤ 5 := by
  cases h with
  | start | group => omega
  | unary => exact Nat.le_refl 5
  | binary _ _ _ hop _ => exact Nat.succ_le_succ (Kind.binding_bounds hop).2

/-- The tokens are those of the stack followed by a phrase of level `m` for the tree. -/
structure Holds (m : Nat) (tokens : List Token) (stack : List Frame) (tree : Expr) : Prop where
  split : ∃ n ts us, tokens = ts ++ us ∧ n ≤ m ∧ Opens n ts stack ∧ Derives m us tree
  depth_le : Frame.depth stack + tree.nesting ≤ nestingLimit

namespace Holds

theorem settle_unary {m : Nat} {tokens : List Token} {stack : List Frame} {op : Token}
    {e : Expr} (h : Holds m tokens (.unary op :: stack) e) :
    Holds 5 tokens stack (.unary op e) := by
  obtain ⟨⟨n, ts, us, rfl, hnm, hopens, hderives⟩, hdepth⟩ := h
  cases hopens with
  | @unary n ts _ _ houter hop _ =>
      refine ⟨⟨n, ts, op :: us, by simp, houter.level_le_five, houter, ?_⟩, ?_⟩
      · exact .unary hop (hderives.of_le hnm)
      · rw [Frame.depth_unary] at hdepth
        rw [Expr.nesting]
        omega

theorem settle_binary {m : Nat} {tokens : List Token} {stack : List Frame} {op : Token}
    {l e : Expr} (h : Holds m tokens (.binary l op :: stack) e) :
    Holds (op.kind.binding?.getD 0) tokens stack (.binary l op e) := by
  obtain ⟨⟨n, ts, us, rfl, hnm, hopens, hderives⟩, hdepth⟩ := h
  cases hopens with
  | @binary b n ts ls _ _ _ houter hleft hnb hop hdepthl =>
      rw [hop]
      refine ⟨⟨n, ts, ls ++ op :: us, by simp, hnb, houter, ?_⟩, ?_⟩
      · exact .binary hleft hop (hderives.of_le hnm)
      · rw [Frame.depth_binary] at hdepth
        rw [Expr.nesting]
        omega

/-- Settling at level `b` keeps what is held, and leaves a stack that awaits phrases
of that level. -/
theorem settle {b m : Nat} {tokens : List Token} {stack : List Frame} {e : Expr}
    (h : Holds m tokens stack e) (hbm : b ≤ m) (hb : b ≤ 5) :
    ∃ m', b ≤ m' ∧ Holds m' tokens (Frame.settle b stack e).1 (Frame.settle b stack e).2 ∧
      Frame.Awaits (max b 1) (Frame.settle b stack e).1 := by
  -- Each frame that takes the tree leaves a tree of the frame's own level, which is at
  -- least `b` or else the frame would have stopped.
  fun_induction Frame.settle b stack e generalizing m with
  | case1 op stack e ih => exact ih h.settle_unary hb
  | case2 l op stack e hle ih => exact ih h.settle_binary hle
  | case3 l op stack e hlt => exact ⟨m, hbm, h, by simp only [Frame.Awaits]; omega⟩
  | case4 stack e => exact ⟨m, hbm, h, trivial⟩
  | case5 e => exact ⟨m, hbm, h, trivial⟩

end Holds

theorem Opens.level_le_of_awaits {m n : Nat} {ts : List Token} {stack : List Frame}
    (h : Opens n ts stack) (hawaits : Frame.Awaits m stack) (hm : 1 ≤ m) : n ≤ m := by
  cases h with
  | start | group => exact hm
  | unary => exact hawaits
  | binary _ _ _ hop _ =>
      rw [Frame.Awaits, hop] at hawaits
      exact hawaits

/-- A stack that awaits the loosest phrases is empty, or its innermost frame is a
grouping. -/
theorem Opens.eq_nil_or_group {n : Nat} {ts : List Token} {stack : List Frame}
    (h : Opens n ts stack) (hawaits : Frame.Awaits 1 stack) :
    stack = [] ∨ ∃ outer, stack = .group :: outer := by
  cases h with
  | start => exact .inl rfl
  | unary => exact absurd hawaits (by simp [Frame.Awaits])
  | group => exact .inr ⟨_, rfl⟩
  | binary _ _ _ hop _ =>
      have := (Kind.binding_bounds hop).1
      rw [Frame.Awaits, hop, Option.getD_some] at hawaits
      omega

/-- Everything that one token can do to a state, with the conditions for it. -/
inductive Effect : State → Token → Step → Prop where
  | openUnary {stack : List Frame} {op : Token} (isPrefix : op.kind.isPrefixOperator)
      (depth_lt : Frame.depth stack < nestingLimit) :
      Effect (.awaiting stack) op (.advance (.awaiting (.unary op :: stack)))
  | openGroup {stack : List Frame} {t : Token} (opens : t.kind = .leftParen)
      (depth_lt : Frame.depth stack < nestingLimit) :
      Effect (.awaiting stack) t (.advance (.awaiting (.group :: stack)))
  | operand {stack : List Frame} {t : Token} {v : Value} (operand : t.operand? = some v) :
      Effect (.awaiting stack) t (.advance (.holding stack (.literal v)))
  | tooDeep {stack : List Frame} {t : Token}
      (opens : t.kind.isPrefixOperator ∨ t.kind = .leftParen)
      (le_depth : nestingLimit ≤ Frame.depth stack) :
      Effect (.awaiting stack) t (.fail .tooDeep true)
  | missingLiteral {stack : List Frame} {t : Token} (kind : t.kind = .number ∨ t.kind = .string)
      (none : t.literal = none) : Effect (.awaiting stack) t (.fail .missingLiteral true)
  | missingExpression {stack : List Frame} {t : Token}
      (opens : ¬(t.kind.isPrefixOperator ∨ t.kind = .leftParen))
      (kind : ¬(t.kind = .number ∨ t.kind = .string)) (operand : t.operand? = none) :
      Effect (.awaiting stack) t (.fail .missingExpression false)
  | operator {n : Nat} {stack outer : List Frame} {e l : Expr} {op : Token}
      (binding : op.kind.binding? = some n) (settled : Frame.settle n stack e = (outer, l)) :
      Effect (.holding stack e) op (.advance (.awaiting (.binary l op :: outer)))
  | close {stack outer : List Frame} {e inner : Expr} {t : Token} (closes : t.kind = .rightParen)
      (settled : Frame.settle 0 stack e = (.group :: outer, inner)) :
      Effect (.holding stack e) t (.advance (.holding outer (.grouping inner)))
  | unclosed {stack outer : List Frame} {e inner : Expr} {t : Token}
      (binding : t.kind.binding? = none) (closes : t.kind ≠ .rightParen)
      (settled : Frame.settle 0 stack e = (.group :: outer, inner)) :
      Effect (.holding stack e) t (.fail .unclosedGroup false)
  | complete {stack outer : List Frame} {e tree : Expr} {t : Token}
      (binding : t.kind.binding? = none) (settled : Frame.settle 0 stack e = (outer, tree))
      (outermost : ∀ more, outer ≠ .group :: more) :
      Effect (.holding stack e) t (.complete tree)

theorem State.effect_openLevel {stack : List Frame} {frame : Frame} {t : Token}
    (hopens : t.kind.isPrefixOperator ∨ t.kind = .leftParen)
    (h : Frame.depth stack < nestingLimit →
      Effect (.awaiting stack) t (.advance (.awaiting (frame :: stack)))) :
    Effect (.awaiting stack) t (openLevel frame stack) := by
  by_cases hlt : Frame.depth stack < nestingLimit
  · rw [openLevel, if_pos hlt]
    exact h hlt
  · rw [openLevel, if_neg hlt]
    exact .tooDeep hopens (Nat.not_lt.mp hlt)

/-- A number or string token is an operand just if it has a literal. -/
theorem State.effect_literal {stack : List Frame} {t : Token}
    (hkind : t.kind = .number ∨ t.kind = .string) :
    Effect (.awaiting stack) t
      (match t.literal with
      | some v => .advance (holding stack (.literal v))
      | none => .fail .missingLiteral true) := by
  split
  · rename_i v hv
    refine .operand ?_
    rcases hkind with h | h <;> rw [Token.operand?, h, hv]
  · rename_i hv
    exact .missingLiteral hkind hv

theorem State.effect_stepOperand (stack : List Frame) (t : Token) :
    Effect (.awaiting stack) t (stepOperand stack t) := by
  unfold stepOperand
  split
  · rename_i h
    exact effect_openLevel (.inl (by rw [h]; rfl)) (.openUnary (by rw [h]; rfl))
  · rename_i h
    exact effect_openLevel (.inl (by rw [h]; rfl)) (.openUnary (by rw [h]; rfl))
  · rename_i h
    exact effect_openLevel (.inr h) (.openGroup h)
  · rename_i h
    exact .operand (by simp [Token.operand?, h])
  · rename_i h
    exact .operand (by simp [Token.operand?, h])
  · rename_i h
    exact .operand (by simp [Token.operand?, h])
  · rename_i h
    exact effect_literal (.inl h)
  · rename_i h
    exact effect_literal (.inr h)
  · refine .missingExpression ?_ ?_ ?_
    · cases h : t.kind <;> simp_all [Kind.isPrefixOperator]
    · cases h : t.kind <;> simp_all
    · cases h : t.kind <;> simp_all [Token.operand?]

theorem State.effect_stepOperator (stack : List Frame) (e : Expr) (t : Token) :
    Effect (.holding stack e) t (stepOperator stack e t) := by
  unfold stepOperator
  split
  · rename_i n hop
    exact .operator hop rfl
  · rename_i hop
    split
    · rename_i outer inner hsettle
      split
      · rename_i hclose
        exact .close hclose hsettle
      · rename_i hclose
        exact .unclosed hop hclose hsettle
    · rename_i outer tree hgroup hsettle
      refine .complete hop hsettle ?_
      intro more hmore
      subst hmore
      exact hgroup more rfl

theorem State.step_effect (s : State) (t : Token) : Effect s t (s.step t) := by
  cases s with
  | awaiting stack => exact effect_stepOperand stack t
  | holding stack e => exact effect_stepOperator stack e t

/-- The tokens taken so far are behind the state. An operand just read is a phrase of
the tightest level, whatever its frames come to later. -/
def State.Explains (tokens : List Token) : State → Prop
  | awaiting stack => ∃ n, Opens n tokens stack
  | holding stack e => Holds 6 tokens stack e

theorem Opens.holds_operand {n : Nat} {ts : List Token} {stack : List Frame} {t : Token}
    {v : Value} (h : Opens n ts stack) (hdepth : Frame.depth stack ≤ nestingLimit)
    (ht : t.operand? = some v) : Holds 6 (ts ++ [t]) stack (.literal v) := by
  have hn := h.level_le_five
  exact ⟨⟨n, ts, [t], rfl, by omega, h, .literal ht⟩, hdepth⟩

theorem Opens.depth_le {n : Nat} {ts : List Token} {stack : List Frame}
    (h : Opens n ts stack) : Frame.depth stack ≤ nestingLimit := by
  cases h with
  | start => exact Nat.zero_le _
  | unary _ _ hlt => rw [Frame.depth_unary]; exact hlt
  | group _ _ hlt => rw [Frame.depth_group]; exact hlt
  | binary _ _ _ _ hle => rw [Frame.depth_binary]; omega

theorem Holds.opens_operator {n : Nat} {tokens : List Token} {stack outer : List Frame}
    {e l : Expr} {op : Token} (h : Holds 6 tokens stack e) (hop : op.kind.binding? = some n)
    (hsettle : Frame.settle n stack e = (outer, l)) :
    Opens (n + 1) (tokens ++ [op]) (.binary l op :: outer) := by
  obtain ⟨hn1, hn4⟩ := Kind.binding_bounds hop
  obtain ⟨m, hnm, hholds, hawaits⟩ := h.settle (b := n) (by omega) (by omega)
  rw [hsettle, Nat.max_eq_left hn1] at hawaits
  rw [hsettle] at hholds
  obtain ⟨⟨k, ts, us, rfl, -, hopens, hderives⟩, hdepth⟩ := hholds
  exact .binary hopens (hderives.of_le hnm) (hopens.level_le_of_awaits hawaits hn1) hop
    (by simpa using hdepth)

/-- What is held when nothing tighter than the loosest level goes on: either a whole
sentence, or what stands in the innermost parentheses. -/
theorem Holds.settle_zero {tokens : List Token} {stack outer : List Frame} {e tree : Expr}
    (h : Holds 6 tokens stack e) (hsettle : Frame.settle 0 stack e = (outer, tree)) :
    outer = [] ∧ Sentence tokens tree ∨
      ∃ more, outer = .group :: more ∧ Holds 1 tokens outer tree := by
  obtain ⟨m, -, hholds, hawaits⟩ := h.settle (b := 0) (Nat.zero_le 6) (Nat.zero_le 5)
  rw [hsettle] at hholds hawaits
  obtain ⟨⟨n, ts, us, rfl, hnm, hopens, hderives⟩, hdepth⟩ := hholds
  have hn : n ≤ 1 := hopens.level_le_of_awaits hawaits (Nat.le_refl 1)
  rcases hopens.eq_nil_or_group hawaits with rfl | ⟨more, rfl⟩
  · cases hopens with
    | start => exact .inl ⟨rfl, hderives.of_le hnm, by simpa using hdepth⟩
  · cases hopens with
    | group houter hopen hlt =>
        exact .inr ⟨more, rfl,
          ⟨_, _, us, rfl, Nat.le_refl 1, .group houter hopen hlt, hderives.of_le hnm⟩, hdepth⟩

theorem Holds.close {tokens : List Token} {outer : List Frame} {inner : Expr} {t : Token}
    (h : Holds 1 tokens (.group :: outer) inner) (ht : t.kind = .rightParen) :
    Holds 6 (tokens ++ [t]) outer (.grouping inner) := by
  obtain ⟨⟨_, ts, us, rfl, -, hopens, hderives⟩, hdepth⟩ := h
  cases hopens with
  | @group n ts _ opening houter hopen _ =>
      have hn := houter.level_le_five
      refine ⟨⟨n, ts, opening :: (us ++ [t]), by simp, by omega, houter, ?_⟩, ?_⟩
      · exact .grouping hopen hderives ht
      · rw [Frame.depth_group] at hdepth
        rw [Expr.nesting]
        omega

/-- A token that is taken keeps the state explained. -/
theorem State.Explains.advance {tokens : List Token} {s next : State} {t : Token}
    (h : s.Explains tokens) (hstep : s.step t = .advance next) :
    next.Explains (tokens ++ [t]) := by
  have heffect := s.step_effect t
  rw [hstep] at heffect
  cases heffect with
  | openUnary hop hlt =>
      obtain ⟨n, hopens⟩ := h
      exact ⟨5, .unary hopens hop hlt⟩
  | openGroup hopen hlt =>
      obtain ⟨n, hopens⟩ := h
      exact ⟨1, .group hopens hopen hlt⟩
  | operand ht =>
      obtain ⟨n, hopens⟩ := h
      exact hopens.holds_operand hopens.depth_le ht
  | operator hop hsettle => exact ⟨_, Holds.opens_operator h hop hsettle⟩
  | close hclose hsettle =>
      rcases Holds.settle_zero h hsettle with ⟨houter, -⟩ | ⟨more, -, hinner⟩
      · cases houter
      · exact hinner.close hclose

/-- What a run accepts, together with the tokens before it, is a sentence. -/
theorem State.Explains.run {tokens input rest : List Token} {s : State} {e : Expr}
    (h : s.Explains tokens) (hrun : s.run input = .ok (e, rest)) :
    ∃ us, input = us ++ rest ∧ Sentence (tokens ++ us) e ∧
      ∀ t ∈ rest.head?, t.kind.binding? = none := by
  -- By induction on the tokens to come: each step moves one of them behind the state.
  induction input generalizing tokens s with
  | nil =>
      cases s with
      | awaiting stack => simp [State.run, State.finish] at hrun
      | holding stack e' =>
          rcases hsettle : Frame.settle 0 stack e' with ⟨outer, tree⟩
          rcases Holds.settle_zero h hsettle with ⟨rfl, hsentence⟩ | ⟨more, rfl, -⟩
          · simp only [State.run, State.finish, hsettle, Except.ok.injEq, Prod.mk.injEq] at hrun
            obtain ⟨rfl, rfl⟩ := hrun
            exact ⟨[], rfl, by simpa using hsentence, by simp⟩
          · simp [State.run, State.finish, hsettle] at hrun
  | cons t input ih =>
      have heffect := s.step_effect t
      cases hstep : s.step t with
      | advance next =>
          rw [State.run_advance hstep] at hrun
          obtain ⟨us, rfl, hsentence, hrest⟩ := ih (h.advance hstep) hrun
          exact ⟨t :: us, rfl, by simpa using hsentence, hrest⟩
      | complete tree =>
          rw [hstep] at heffect
          simp only [State.run, hstep, Except.ok.injEq, Prod.mk.injEq] at hrun
          obtain ⟨rfl, rfl⟩ := hrun
          cases heffect with
          | complete hop hsettle houtermost =>
              rcases Holds.settle_zero h hsettle with ⟨-, hsentence⟩ | ⟨more, hgroup, -⟩
              · exact ⟨[], rfl, by simpa using hsentence, by simpa using hop⟩
              · exact absurd hgroup (houtermost more)
      | fail fault taken => simp [State.run, hstep] at hrun

/-- Reading takes the one sentence at the front that no binary operator follows. -/
theorem readExpr_eq_ok_iff {input rest : List Token} {e : Expr} :
    readExpr input = .ok (e, rest) ↔
      ∃ ts, input = ts ++ rest ∧ Sentence ts e ∧ ∀ t ∈ rest.head?, t.kind.binding? = none := by
  constructor
  · intro h
    have hstart : (State.awaiting []).Explains [] := ⟨1, .start⟩
    exact hstart.run h
  · rintro ⟨ts, rfl, hsentence, hrest⟩
    exact readExpr_sentence hsentence hrest

end LoxCalc
