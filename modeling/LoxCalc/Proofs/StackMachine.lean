import LoxCalc.Expr.Postorder
import LoxCalc.Proofs.ValueKinds

/-!
# LoxCalc.Proofs.StackMachine

Evaluation as a run of a stack machine over the nodes in postorder.

A literal pushes its value, a grouping does nothing, and an operator takes its operands from
the stack. The induction on the tree is over all stacks below it: running the nodes of a tree
leaves the stack as it was, with the value of the tree on top, or stops with its error
(`StackMachine.run_postorder`).

A run that stops does so at the first node that cannot be executed. On the side of the trees
that is the first one in postorder that fails: all the trees before it have a value
(`Expr.FailsAt`). Nothing behind that node is looked at, and since groupings do nothing, they
can be put in or left out anywhere (`Expr.eval_ungrouped`).
-/

namespace LoxCalc

/-! ### The machine -/

namespace StackMachine

/-- Why a run stops before its end. -/
inductive Stop where
  /-- An operator cannot be applied. -/
  | error (e : EvalError)
  /-- There are too few operands on the stack. -/
  | underflow
deriving DecidableEq

/-- The stack after a step, with the last value first. -/
abbrev Result := Except Stop (List Value)

/-- Puts the value of an outcome on the stack, or stops with its error. -/
def push (stack : List Value) : Outcome → Result
  | .ok v => .ok (v :: stack)
  | .error e => .error (.error e)

/-- Executes one node. -/
def exec : List Value → Node → Result
  | stack, .literal v => .ok (v :: stack)
  | stack, .grouping => .ok stack
  | x :: stack, .unary op => push stack (applyUnary op x)
  | y :: x :: stack, .binary op => push stack (applyBinary op x y)
  | _, _ => .error .underflow

/-- Executes some nodes in turn. -/
def run (nodes : List Node) (stack : List Value) : Result := nodes.foldlM exec stack

variable {nodes more : List Node} {node : Node} {stack below : List Value} {outcome : Outcome}
  {stop : Stop} {error : EvalError}

theorem run_append (nodes more : List Node) (stack : List Value) :
    run (nodes ++ more) stack = run nodes stack >>= run more :=
  List.foldlM_append

theorem run_concat (nodes : List Node) (node : Node) (stack : List Value) :
    run (nodes ++ [node]) stack = run nodes stack >>= (exec · node) := by
  rw [run_append]
  congr 1
  funext s
  simp [run]

/-- What stands behind the node that stops a run makes no difference. -/
theorem run_stopped (hrun : run nodes below = .ok stack) (hstop : exec stack node = .error stop)
    (more : List Node) : run (nodes ++ node :: more) below = .error stop := by
  rw [run_append, hrun]
  show (exec stack node >>= run more) = _
  rw [hstop]
  rfl

theorem push_eq_error (h : push stack outcome = .error (.error error)) :
    outcome = .error error := by
  cases outcome with
  | ok v => cases h
  | error e =>
      cases h
      rfl

/-- Running the nodes of a tree comes to its outcome, whatever is on the stack. -/
theorem run_postorder (e : Expr) (stack : List Value) :
    run e.postorder stack = push stack e.eval := by
  induction e generalizing stack with
  | literal v => rfl
  | grouping e ih =>
      rw [Expr.postorder_grouping, run_concat, ih, Expr.eval_grouping]
      cases e.eval <;> rfl
  | unary op e ih =>
      rw [Expr.postorder_unary, run_concat, ih, Expr.eval]
      cases e.eval <;> rfl
  | binary l op r ihl ihr =>
      rw [Expr.postorder_binary, run_concat, run_append, ihl, Expr.eval]
      cases l.eval with
      | error e => rfl
      | ok x =>
          show (run r.postorder (x :: stack) >>= (exec · (.binary op))) =
            push stack (r.eval >>= applyBinary op x)
          rw [ihr]
          cases r.eval <;> rfl

end StackMachine

/-! ### Errors and operators -/

/-- The operator of a node that has one. -/
def Node.operator? : Node → Option Token
  | literal _ | grouping => none
  | unary op | binary op => some op

theorem applyUnary_operator {op : Token} {x : Value} {error : EvalError}
    (h : applyUnary op x = .error error) : error.operator = op := by
  unfold applyUnary at h
  split at h
  · split at h <;> cases h
    rfl
  · cases h
  · cases h
    rfl

theorem onNumbers_operator {op : Token} {x y : Value} {f : Double → Double → Outcome}
    {error : EvalError} (hf : ∀ a b, f a b = .error error → error.operator = op)
    (h : onNumbers op x y f = .error error) : error.operator = op := by
  unfold onNumbers at h
  split at h
  · exact hf _ _ h
  · cases h
    rfl

theorem applyBinary_operator {op : Token} {x y : Value} {error : EvalError}
    (h : applyBinary op x y = .error error) : error.operator = op := by
  unfold applyBinary at h
  cases hkind : op.kind <;> simp only [hkind] at h
  case plus =>
    split at h <;> cases h
    rfl
  case slash =>
    refine onNumbers_operator (fun a b he => ?_) h
    split at he <;> cases he
    rfl
  case minus | star | greater | greaterEqual | less | lessEqual =>
    exact onNumbers_operator (fun a b he => by cases he) h
  case equalEqual | bangEqual => cases h
  all_goals
    cases h
    rfl

/-- A node that stops the machine with an error is the operator that is blamed. -/
theorem StackMachine.operator_of_exec {stack : List Value} {node : Node} {error : EvalError}
    (h : exec stack node = .error (.error error)) : node.operator? = some error.operator := by
  unfold exec at h
  split at h
  · cases h
  · cases h
  · rw [applyUnary_operator (push_eq_error h)]
    rfl
  · rw [applyBinary_operator (push_eq_error h)]
    rfl
  · cases h

/-! ### The first tree that fails -/

namespace Expr

open StackMachine

/-- The node at the top of a tree. -/
def root : Expr → Node
  | literal v => .literal v
  | grouping _ => .grouping
  | unary op _ => .unary op
  | binary _ op _ => .binary op

/-- All the trees in a tree, in the postorder of their roots. -/
def bottomUp : Expr → List Expr
  | literal v => [literal v]
  | grouping e => e.bottomUp ++ [grouping e]
  | unary op e => e.bottomUp ++ [unary op e]
  | binary l op r => l.bottomUp ++ r.bottomUp ++ [binary l op r]

theorem map_root_bottomUp (e : Expr) : e.bottomUp.map root = e.postorder := by
  induction e with
  | literal v => rfl
  | grouping e ih => rw [bottomUp, List.map_append, ih, postorder_grouping]; rfl
  | unary op e ih => rw [bottomUp, List.map_append, ih, postorder_unary]; rfl
  | binary l op r ihl ihr =>
      rw [bottomUp, List.map_append, List.map_append, ihl, ihr, postorder_binary]
      rfl

theorem run_bottomUp (e : Expr) (stack : List Value) :
    run (e.bottomUp.map root) stack = push stack e.eval := by
  rw [map_root_bottomUp, run_postorder]

/-- All of these trees have values. -/
def Evaluate (trees : List Expr) : Prop := ∀ t ∈ trees, ∃ v, t.eval = .ok v

/-- The error comes from the tree `t`, which is the first one in postorder that fails. The
machine gets past the nodes before it, whatever is on the stack, and stops at its root, the
operator that is blamed. -/
structure FailsAt (e : Expr) (error : EvalError) (before : List Expr) (t : Expr)
    (after : List Expr) : Prop where
  bottomUp_eq : e.bottomUp = before ++ t :: after
  evaluate : Evaluate before
  fails : t.eval = .error error
  stops : ∀ below, ∃ stack, run (before.map root) below = .ok stack ∧
    exec stack t.root = .error (.error error)
  operator : t.root.operator? = some error.operator

variable {e l r t : Expr} {op : Token} {error : EvalError} {v : Value}
  {trees others before after : List Expr}

theorem Evaluate.append (h : Evaluate trees) (h' : Evaluate others) :
    Evaluate (trees ++ others) := by
  intro t ht
  rcases List.mem_append.mp ht with ht | ht
  · exact h t ht
  · exact h' t ht

/-- A tree has a value only if all the trees in it have. -/
theorem evaluate_bottomUp (h : e.eval = .ok v) : Evaluate e.bottomUp := by
  have hself {t : Expr} {v : Value} (h : t.eval = .ok v) : Evaluate [t] := by
    intro u hu
    obtain rfl := List.mem_singleton.mp hu
    exact ⟨v, h⟩
  induction e generalizing v with
  | literal w => exact hself h
  | grouping e ih => exact (ih h).append (hself h)
  | unary op e ih =>
      obtain ⟨x, hx, -⟩ := bind_eq_ok h
      exact (ih hx).append (hself h)
  | binary l op r ihl ihr =>
      obtain ⟨x, hx, hright⟩ := bind_eq_ok h
      obtain ⟨y, hy, -⟩ := bind_eq_ok hright
      exact ((ihl hx).append (ihr hy)).append (hself h)

/-- A tree with an operator that cannot be applied fails there. -/
theorem FailsAt.of_exec (hbottomUp : t.bottomUp = before ++ [t]) (hevaluate : Evaluate before)
    (hfails : t.eval = .error error)
    (hstops : ∀ below, ∃ stack, run (before.map root) below = .ok stack ∧
      exec stack t.root = .error (.error error)) : t.FailsAt error before t [] := by
  obtain ⟨stack, -, hexec⟩ := hstops []
  exact ⟨hbottomUp, hevaluate, hfails, hstops, operator_of_exec hexec⟩

/-- The trees around one that fails fail with it, if the trees before it have values. -/
theorem FailsAt.extend (h : e.FailsAt error before t after) {whole : Expr}
    {earlier later : List Expr} (hbottomUp : whole.bottomUp = earlier ++ e.bottomUp ++ later)
    (hevaluate : Evaluate earlier)
    (hrun : ∀ below, ∃ stack, run (earlier.map root) below = .ok stack) :
    whole.FailsAt error (earlier ++ before) t (after ++ later) where
  bottomUp_eq := by rw [hbottomUp, h.bottomUp_eq]; simp
  evaluate := hevaluate.append h.evaluate
  fails := h.fails
  stops below := by
    obtain ⟨middle, hmiddle⟩ := hrun below
    obtain ⟨stack, hstack, hexec⟩ := h.stops middle
    refine ⟨stack, ?_, hexec⟩
    rw [List.map_append, run_append, hmiddle]
    exact hstack
  operator := h.operator

theorem exists_failsAt (h : e.eval = .error error) :
    ∃ before t after, e.FailsAt error before t after := by
  have hnothing : Evaluate [] := fun t ht => absurd ht List.not_mem_nil
  induction e with
  | literal v => cases h
  | grouping e ih =>
      obtain ⟨before, t, after, hfails⟩ := ih h
      exact ⟨_, t, _, hfails.extend rfl hnothing fun below => ⟨below, rfl⟩⟩
  | unary op e ih =>
      rcases bind_eq_error h with herror | ⟨x, hx, happly⟩
      · obtain ⟨before, t, after, hfails⟩ := ih herror
        exact ⟨_, t, _, hfails.extend rfl hnothing fun below => ⟨below, rfl⟩⟩
      · refine ⟨_, _, [], .of_exec rfl (evaluate_bottomUp hx) h fun below => ?_⟩
        refine ⟨x :: below, ?_, ?_⟩
        · rw [run_bottomUp, hx]
          rfl
        · rw [root, exec, happly]
          rfl
  | binary l op r ihl ihr =>
      rcases bind_eq_error h with herror | ⟨x, hx, hright⟩
      · obtain ⟨before, t, after, hfails⟩ := ihl herror
        exact ⟨_, t, _, hfails.extend (List.append_assoc _ _ _) hnothing
          fun below => ⟨below, rfl⟩⟩
      have hleft (below : List Value) : run (l.bottomUp.map root) below = .ok (x :: below) := by
        rw [run_bottomUp, hx]
        rfl
      rcases bind_eq_error hright with herror | ⟨y, hy, happly⟩
      · obtain ⟨before, t, after, hfails⟩ := ihr herror
        exact ⟨_, t, _, hfails.extend rfl (evaluate_bottomUp hx)
          fun below => ⟨_, hleft below⟩⟩
      · have hoperands := (evaluate_bottomUp hx).append (evaluate_bottomUp hy)
        refine ⟨_, _, [], .of_exec rfl hoperands h fun below => ⟨y :: x :: below, ?_, ?_⟩⟩
        · rw [List.map_append, run_append, hleft]
          show run (r.bottomUp.map root) (x :: below) = _
          rw [run_bottomUp, hy]
          rfl
        · rw [root, exec, happly]
          rfl

/-- A tree whose nodes begin with those that make the machine stop with an error fails with
it. -/
theorem FailsAt.eval_eq (h : e.FailsAt error before t after) {other : Expr} {nodes : List Node}
    (hnodes : other.postorder = before.map root ++ t.root :: nodes) :
    other.eval = .error error := by
  obtain ⟨stack, hrun, hexec⟩ := h.stops []
  have hstops := run_stopped hrun hexec nodes
  rw [← hnodes, run_postorder] at hstops
  exact push_eq_error hstops

theorem FailsAt.postorder_eq (h : e.FailsAt error before t after) :
    e.postorder = before.map root ++ t.root :: after.map root := by
  rw [← map_root_bottomUp, h.bottomUp_eq, List.map_append, List.map_cons]

/-! ### Groupings -/

/-- A tree without its groupings. -/
def ungrouped : Expr → Expr
  | literal v => literal v
  | grouping e => e.ungrouped
  | unary op e => unary op e.ungrouped
  | binary l op r => binary l.ungrouped op r.ungrouped

theorem eval_ungrouped (e : Expr) : e.ungrouped.eval = e.eval := by
  induction e with
  | literal v => rfl
  | grouping e ih => exact ih
  | unary op e ih => rw [ungrouped, eval, eval, ih]
  | binary l op r ihl ihr => rw [ungrouped, eval, eval, ihl, ihr]

/-! ### Evaluation -/

/-- The machine comes to the outcome of any tree. An error is that of the first operator in
postorder that cannot be applied, also for all trees that have the same nodes up to there. And
trees that differ only in groupings have the same outcome. -/
theorem eval_machine (e : Expr) :
    (∀ stack, run e.postorder stack = push stack e.eval) ∧
      (∀ error, e.eval = .error error ↔ ∃ before t after, e.FailsAt error before t after) ∧
      (∀ error before t after, e.FailsAt error before t after →
        ∀ (other : Expr) (nodes : List Node),
          other.postorder = before.map root ++ t.root :: nodes → other.eval = .error error) ∧
      ∀ other : Expr, other.ungrouped = e.ungrouped → other.eval = e.eval := by
  refine ⟨run_postorder e, fun error => ⟨exists_failsAt, ?_⟩, ?_, ?_⟩
  · rintro ⟨before, t, after, hfails⟩
    exact hfails.eval_eq hfails.postorder_eq
  · intro error before t after hfails other nodes hnodes
    exact hfails.eval_eq hnodes
  · intro other hsame
    rw [← eval_ungrouped other, hsame, eval_ungrouped]

end Expr

end LoxCalc
