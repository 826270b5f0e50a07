import LoxCalc.Proofs.OperatorLines
import LoxCalc.Proofs.PrintableTrees
import LoxCalc.Proofs.SourceEndings

/-!
# LoxCalc.Proofs.LineIndependence

Nothing after scanning looks at a line.

Whatever holds tokens can be `unlined`, which puts them all on line 0. A step of a reading
of unlined tokens is the unlined step (`State.step_unlined`), and so for a whole reading
(`State.run_unlined`) and for evaluation (`Expr.eval_unlined`). Hence two sources that are
scanned alike but for the lines come to the same in every session, but for the lines
(`ScannedAlike.comeAlike`).
-/

namespace LoxCalc

/-! ### Tokens and what holds them -/

/-- The token on line 0. -/
def Token.unlined (t : Token) : Token := { t with line := 0 }

@[simp] theorem Token.kind_unlined (t : Token) : t.unlined.kind = t.kind := rfl

@[simp] theorem Token.literal_unlined (t : Token) : t.unlined.literal = t.literal := rfl

/-- The frame with its operators on line 0. -/
def Frame.unlined : Frame → Frame
  | unary op => unary op.unlined
  | group => group
  | binary l op => binary l.unlined op.unlined

def State.unlined : State → State
  | awaiting stack => awaiting (stack.map Frame.unlined)
  | holding stack tree => holding (stack.map Frame.unlined) tree.unlined

def Step.unlined : Step → Step
  | advance state => advance state.unlined
  | complete tree => complete tree.unlined
  | fail fault taken => fail fault taken

def Failure.unlined (f : Failure) : Failure :=
  ⟨f.fault, f.culprit?.map Token.unlined, f.rest.map Token.unlined⟩

/-! ### Reading -/

namespace Frame

theorem depth_unlined (stack : List Frame) : depth (stack.map unlined) = depth stack := by
  induction stack with
  | nil => rfl
  | cons frame stack ih =>
      cases frame with
      | unary op => rw [List.map_cons, unlined, depth_unary, ih, depth_unary]
      | group => rw [List.map_cons, unlined, depth_group, ih, depth_group]
      | binary l op => rw [List.map_cons, unlined, depth_binary, ih, depth_binary]

theorem settle_unlined (binding : Nat) (stack : List Frame) (e : Expr) :
    settle binding (stack.map unlined) e.unlined =
      ((settle binding stack e).1.map unlined, (settle binding stack e).2.unlined) := by
  fun_induction settle binding stack e with
  | case1 op stack e ih => exact ih
  | case2 l op stack e hle ih =>
      rw [List.map_cons, unlined, settle, Token.kind_unlined, if_pos hle]
      exact ih
  | case3 l op stack e hlt =>
      rw [List.map_cons, unlined, settle, Token.kind_unlined, if_neg hlt]
  | case4 => rfl
  | case5 => rfl

end Frame

namespace State

theorem openLevel_unlined (frame : Frame) (stack : List Frame) :
    openLevel frame.unlined (stack.map Frame.unlined) = (openLevel frame stack).unlined := by
  rw [openLevel, openLevel, Frame.depth_unlined]
  split <;> rfl

theorem stepOperand_unlined (stack : List Frame) (t : Token) :
    stepOperand (stack.map Frame.unlined) t.unlined = (stepOperand stack t).unlined := by
  rw [stepOperand, stepOperand, Token.kind_unlined, Token.literal_unlined]
  cases t.kind with
  | bang | minus => exact openLevel_unlined (.unary t) stack
  | leftParen => exact openLevel_unlined .group stack
  | number | string => cases t.literal <;> rfl
  | _ => rfl

theorem stepOperator_unlined (stack : List Frame) (tree : Expr) (t : Token) :
    stepOperator (stack.map Frame.unlined) tree.unlined t.unlined =
      (stepOperator stack tree t).unlined := by
  rw [stepOperator, stepOperator, Token.kind_unlined]
  cases t.kind.binding? with
  | some binding =>
      simp only [Frame.settle_unlined]
      rfl
  | none =>
      -- Only where a group is open does the kind of the token matter once more.
      simp only [Frame.settle_unlined]
      rcases Frame.settle 0 stack tree with ⟨_ | ⟨_ | _ | _, outer⟩, inner⟩
      case group =>
        by_cases hclose : t.kind = .rightParen
        · simp only [hclose, if_true]
          rfl
        · simp only [hclose, if_false]
          rfl
      all_goals rfl

/-- A step does not depend on lines. -/
theorem step_unlined (s : State) (t : Token) : s.unlined.step t.unlined = (s.step t).unlined := by
  cases s with
  | awaiting stack => exact stepOperand_unlined stack t
  | holding stack tree => exact stepOperator_unlined stack tree t

theorem finish_unlined (s : State) : s.unlined.finish = s.finish.map Expr.unlined := by
  cases s with
  | awaiting stack => rfl
  | holding stack tree =>
      simp only [unlined, finish, Frame.settle_unlined]
      rcases Frame.settle 0 stack tree with ⟨_ | ⟨_ | _ | _, outer⟩, inner⟩ <;> rfl

/-- What a reading from some state comes to, without lines. -/
def runUnlined (s : State) (tokens : List Token) : Except Failure (Expr × List Token) :=
  ((s.run tokens).map fun (e, rest) => (e.unlined, rest.map Token.unlined)).mapError
    Failure.unlined

/-- A reading does not depend on lines. -/
theorem run_unlined (s : State) (tokens : List Token) :
    s.unlined.run (tokens.map Token.unlined) = s.runUnlined tokens := by
  induction tokens generalizing s with
  | nil =>
      rw [List.map_nil, runUnlined, run, run, finish_unlined]
      cases s.finish <;> rfl
  | cons t tokens ih =>
      rw [List.map_cons, runUnlined, run, run, step_unlined]
      cases s.step t with
      | advance next => exact ih next
      | complete tree => rfl
      | fail fault taken => cases taken <;> rfl

end State

def ParseError.unlined (e : ParseError) : ParseError := ⟨e.token.unlined, e.fault⟩

namespace TokenStream

/-- What a reading comes to, when its tokens end with the given one. -/
def outcomeOf (stop : Token) :
    Except Failure (Expr × List Token) → Except ParseError Expr
  | .ok (tree, _) => .ok tree
  | .error failure => .error ⟨failure.culprit?.getD stop, failure.fault⟩

theorem outcome_read (s : TokenStream) : s.read.outcome = outcomeOf s.stop (readExpr s.pending) := by
  unfold read
  cases readExpr s.pending <;> rfl

/-- Without lines, the outcome is that of the tokens without lines. -/
theorem outcome_unlined (s : TokenStream) :
    (s.read.outcome.map Expr.unlined).mapError ParseError.unlined =
      outcomeOf s.stop.unlined (readExpr (s.pending.map Token.unlined)) := by
  have hrun : readExpr (s.pending.map Token.unlined) = (State.awaiting []).runUnlined s.pending :=
    State.run_unlined (.awaiting []) s.pending
  rw [outcome_read, hrun, readExpr, State.runUnlined]
  cases (State.awaiting []).run s.pending with
  | ok result => rfl
  | error failure =>
      obtain ⟨fault, culprit?, rest⟩ := failure
      cases culprit? <;> rfl

end TokenStream

/-! ### Evaluation -/

def EvalError.unlined (e : EvalError) : EvalError := ⟨e.operator.unlined, e.fault⟩

theorem onNumbers_unlined (op : Token) (x y : Value) (f g : Double → Double → Outcome)
    (hfg : ∀ a b, g a b = (f a b).mapError EvalError.unlined) :
    onNumbers op.unlined x y g = (onNumbers op x y f).mapError EvalError.unlined := by
  unfold onNumbers
  split
  · exact hfg _ _
  · rfl

theorem applyUnary_unlined (op : Token) (x : Value) :
    applyUnary op.unlined x = (applyUnary op x).mapError EvalError.unlined := by
  unfold applyUnary
  rw [Token.kind_unlined]
  cases op.kind with
  | minus => cases x <;> rfl
  | _ => rfl

theorem applyBinary_unlined (op : Token) (x y : Value) :
    applyBinary op.unlined x y = (applyBinary op x y).mapError EvalError.unlined := by
  unfold applyBinary
  rw [Token.kind_unlined]
  cases op.kind with
  | plus => cases x <;> cases y <;> rfl
  | slash =>
      refine onNumbers_unlined op x y _ _ fun a b => ?_
      split <;> rfl
  | minus | star | greater | greaterEqual | less | lessEqual =>
      exact onNumbers_unlined op x y _ _ fun a b => rfl
  | _ => rfl

/-- An evaluation does not depend on lines, apart from the token to blame. -/
theorem Expr.eval_unlined (e : Expr) : e.unlined.eval = e.eval.mapError EvalError.unlined := by
  induction e with
  | literal v => rfl
  | grouping e ih => exact ih
  | unary op e ih =>
      rw [unlined, eval, ih, eval]
      cases e.eval with
      | error error => rfl
      | ok x => exact applyUnary_unlined op x
  | binary l op r ihl ihr =>
      rw [unlined, eval, ihl, ihr, eval]
      cases l.eval with
      | error error => rfl
      | ok x =>
          cases r.eval with
          | error error => rfl
          | ok y => exact applyBinary_unlined op x y

/-! ### Sessions -/

def ScanError.unlined : ScanError → ScanError
  | stray _ c => stray 0 c
  | unclosed _ => unclosed 0

/-- The diagnostic on line 0: what went wrong, and at which token. -/
def Diagnostic.unlined : Diagnostic → Diagnostic
  | scan e => scan e.unlined
  | parse e => parse e.unlined
  | runtime e => runtime e.unlined

def Reading.unlined (r : Reading) : Reading :=
  ⟨r.errors.map Diagnostic.unlined, r.tree?.map Expr.unlined⟩

theorem Reading.accepted?_unlined (r : Reading) :
    r.unlined.accepted? = r.accepted?.map Expr.unlined := by
  rw [accepted?, accepted?, unlined, List.isEmpty_map]
  split <;> rfl

/-- Two sources are scanned to the same tokens and errors, but for the lines. -/
structure ScannedAlike (source other : String) : Prop where
  tokens : (scan other).tokens.map Token.unlined = (scan source).tokens.map Token.unlined
  errors : (scan other).errors.map ScanError.unlined = (scan source).errors.map ScanError.unlined

/-- In every session, two sources come to the same tree, the same value and the same
diagnostics, but for the lines. -/
structure ComeAlike (source other : String) : Prop where
  parse : ∃ (tree? tree'? : Option Expr) (found found' : List Diagnostic),
    tree'?.map Expr.unlined = tree?.map Expr.unlined ∧
    found'.map Diagnostic.unlined = found.map Diagnostic.unlined ∧
    ∀ s : Session, s.parse source = (tree?, s.record found) ∧
      s.parse other = (tree'?, s.record found')
  run : ∃ (value? : Option Value) (found found' : List Diagnostic),
    found'.map Diagnostic.unlined = found.map Diagnostic.unlined ∧
    ∀ s : Session, s.run source = (value?, s.record found) ∧
      s.run other = (value?, s.record found')

namespace ScannedAlike

variable {source other : String}

theorem outcome_eq (h : ScannedAlike source other) :
    (((TokenStream.ofTokens (scan other).tokens).read.outcome.map Expr.unlined).mapError
        ParseError.unlined) =
      ((TokenStream.ofTokens (scan source).tokens).read.outcome.map Expr.unlined).mapError
        ParseError.unlined := by
  have htokens := h.tokens
  -- The last token of each scan, and no other, ends its stream.
  simp only [scan, Segment.tokens_eq_lexemes, List.map_append, List.map_cons, List.map_nil]
    at htokens
  obtain ⟨hpending, -⟩ := List.append_inj' htokens rfl
  rw [TokenStream.outcome_unlined, TokenStream.outcome_unlined, ofTokens_scan, ofTokens_scan,
    hpending]
  rfl

theorem reading_eq (h : ScannedAlike source other) :
    (readSource other).unlined = (readSource source).unlined := by
  have houtcome := h.outcome_eq
  have herrors : ((scan other).errors.map Diagnostic.scan).map Diagnostic.unlined =
      ((scan source).errors.map Diagnostic.scan).map Diagnostic.unlined := by
    have hmapped := congrArg (List.map Diagnostic.scan) h.errors
    rw [List.map_map, List.map_map] at hmapped ⊢
    exact hmapped
  rw [readSource, readSource]
  revert houtcome
  cases (TokenStream.ofTokens (scan other).tokens).read.outcome <;>
    cases (TokenStream.ofTokens (scan source).tokens).read.outcome <;> intro houtcome
  case ok.ok tree tree' => simp_all [Reading.unlined, Except.map, Except.mapError]
  case error.error e e' =>
    simp_all [Reading.unlined, Except.map, Except.mapError, Diagnostic.unlined]
  all_goals cases houtcome

theorem accepted_eq (h : ScannedAlike source other) :
    (readSource other).accepted?.map Expr.unlined =
      (readSource source).accepted?.map Expr.unlined := by
  rw [← Reading.accepted?_unlined, h.reading_eq, Reading.accepted?_unlined]

theorem errors_eq (h : ScannedAlike source other) :
    (readSource other).errors.map Diagnostic.unlined =
      (readSource source).errors.map Diagnostic.unlined :=
  congrArg Reading.errors h.reading_eq

theorem comeAlike (h : ScannedAlike source other) : ComeAlike source other where
  parse := ⟨_, _, _, _, h.accepted_eq, h.errors_eq,
    fun s => ⟨s.parse_eq source, s.parse_eq other⟩⟩
  run := by
    have haccepted := h.accepted_eq
    simp only [Session.run_eq]
    cases htree : (readSource source).accepted? with
    | none =>
        rw [htree, Option.map_none, Option.map_eq_none_iff] at haccepted
        rw [haccepted]
        exact ⟨none, _, _, h.errors_eq, fun s => ⟨rfl, rfl⟩⟩
    | some tree =>
        rw [htree, Option.map_some, Option.map_eq_some_iff] at haccepted
        obtain ⟨tree', htree', halike⟩ := haccepted
        have heval : tree'.eval.mapError EvalError.unlined =
            tree.eval.mapError EvalError.unlined := by
          rw [← Expr.eval_unlined, halike, Expr.eval_unlined]
        rw [htree']
        dsimp only
        revert heval
        cases tree'.eval <;> cases tree.eval <;> intro heval
        case ok.ok v v' =>
          obtain rfl := Except.ok.inj heval
          exact ⟨some v, [], [], rfl, fun s => by simp⟩
        case error.error e e' =>
          have hblame : e.unlined = e'.unlined := Except.error.inj heval
          refine ⟨none, [.runtime e'], [.runtime e], ?_, fun s => ⟨rfl, rfl⟩⟩
          rw [List.map_singleton, List.map_singleton, Diagnostic.unlined, Diagnostic.unlined,
            hblame]
        all_goals cases heval

end ScannedAlike

end LoxCalc
