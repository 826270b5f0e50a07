import Mathlib.Data.List.DropRight
import LoxCalc.Proofs.SourceEndings

/-!
# LoxCalc.Proofs.SessionHistories

What a session remembers of everything that was done to it.

* **One action** either records diagnostics that do not depend on the session, or
  removes what is pending (`Session.perform_snd`). Nothing else changes.
* **A history**: pending is what was recorded since the last removal, and the count and
  the flag tell what was recorded since the last reset (`Session.remembers_replay`).
* **No diagnostic is handed out twice**: what was recorded is, in order, what the
  actions handed out or lost, and what is pending (`Session.replay_conserves`).
-/

namespace LoxCalc

/-! ### Actions -/

namespace Action

/-- What an action records, in whatever session: a run the static errors of its source, or
else the error of its tree, and a parse the static errors alone. -/
def records : Action → List Diagnostic
  | run source => staticErrors source ++ runtimeErrors source
  | parse source => staticErrors source
  | record d => [d]
  | drain | drainSome _ | reset => []

/-- Does the action leave nothing pending? -/
def clears : Action → Bool
  | drain | drainSome _ | reset => true
  | run _ | parse _ | record _ => false

/-- Does the action start over? -/
def isReset : Action → Bool
  | reset => true
  | run _ | parse _ | record _ | drain | drainSome _ => false

theorem isReset_eq_false {a : Action} (h : a ≠ reset) : a.isReset = false := by
  cases a <;> first | rfl | exact absurd rfl h

theorem records_of_clears {a : Action} (h : a.clears) : a.records = [] := by
  cases a <;> first | rfl | cases h

theorem clears_of_isReset {a : Action} (h : a.isReset) : a.clears := by
  cases a <;> first | rfl | cases h

/-- The diagnostics that some actions record, in order. -/
def recorded (actions : List Action) : List Diagnostic := actions.flatMap records

@[simp] theorem recorded_nil : recorded [] = [] := rfl

@[simp] theorem recorded_append (a b : List Action) :
    recorded (a ++ b) = recorded a ++ recorded b :=
  List.flatMap_append

@[simp] theorem recorded_singleton (a : Action) : recorded [a] = a.records :=
  List.flatMap_singleton ..

/-- The actions after the last one of a sort. -/
def since (sort : Action → Bool) (actions : List Action) : List Action :=
  actions.rtakeWhile (!sort ·)

@[simp] theorem since_nil (sort : Action → Bool) : since sort [] = [] := rfl

theorem since_append_of_pos {sort : Action → Bool} {a : Action} (h : sort a)
    (actions : List Action) : since sort (actions ++ [a]) = [] :=
  List.rtakeWhile_concat_neg _ _ _ (by simp [h])

theorem since_append_of_neg {sort : Action → Bool} {a : Action} (h : sort a = false)
    (actions : List Action) : since sort (actions ++ [a]) = since sort actions ++ [a] :=
  List.rtakeWhile_concat_pos _ _ _ (by simp [h])

theorem since_append_of_all {sort : Action → Bool} {more : List Action}
    (h : ∀ a ∈ more, sort a = false) (actions : List Action) :
    since sort (actions ++ more) = since sort actions ++ more := by
  induction more using List.reverseRecOn with
  | nil => simp
  | append_singleton more a ih =>
      have hmore : ∀ b ∈ more, sort b = false := fun b hb => h b (List.mem_append_left _ hb)
      rw [← List.append_assoc, since_append_of_neg (h a (by simp)), ih hmore, List.append_assoc]

end Action

/-- What a reply hands out. -/
def Reply.taken : Reply → List Diagnostic
  | diagnostics taken => taken
  | value _ | tree _ | nothing => []

namespace Session

open LoxCalc.Action (recorded since clears isReset)

/-- The session after an action. -/
theorem perform_snd (s : Session) (a : Action) :
    (s.perform a).2 =
      if a.isReset then fresh else if a.clears then { s with pending := [] }
      else s.record a.records := by
  cases a with
  | run source => exact s.run_snd source
  | parse source => exact s.parse_snd source
  | drain | drainSome | reset | record => rfl

/-- The session after some actions. -/
def replay (s : Session) (actions : List Action) : Session :=
  actions.foldl (fun s a => (s.perform a).2) s

theorem replay_append (s : Session) (a b : List Action) :
    s.replay (a ++ b) = (s.replay a).replay b :=
  List.foldl_append

theorem replay_append_singleton (s : Session) (actions : List Action) (a : Action) :
    s.replay (actions ++ [a]) = ((s.replay actions).perform a).2 :=
  replay_append s actions [a]

/-! ### What is remembered -/

/-- The session tells what was recorded in a history. -/
structure Remembers (s : Session) (actions : List Action) : Prop where
  pending : s.pending = recorded (since clears actions)
  staticCount : s.staticCount = (recorded (since isReset actions)).countP Diagnostic.isStatic
  evaluationFailed : s.evaluationFailed = (recorded (since isReset actions)).any (!·.isStatic)

/-- An action keeps the session in step with its history. -/
theorem Remembers.perform {s : Session} {actions : List Action} (h : s.Remembers actions)
    (a : Action) : (s.perform a).2.Remembers (actions ++ [a]) := by
  rw [perform_snd]
  -- A reset clears as well, so both spans of the history begin anew with it.
  by_cases hreset : a.isReset
  · have hclears := Action.clears_of_isReset hreset
    rw [if_pos hreset]
    constructor
    · rw [Action.since_append_of_pos hclears]; rfl
    · rw [Action.since_append_of_pos hreset]; rfl
    · rw [Action.since_append_of_pos hreset]; rfl
  rw [if_neg hreset]
  have hsince := Action.since_append_of_neg (Bool.eq_false_iff.mpr hreset) actions
  by_cases hclears : a.clears
  · rw [if_pos hclears]
    constructor
    · rw [Action.since_append_of_pos hclears]; rfl
    · simp [hsince, Action.records_of_clears hclears, h.staticCount]
    · simp [hsince, Action.records_of_clears hclears, h.evaluationFailed]
  · rw [if_neg hclears]
    have hsince' := Action.since_append_of_neg (Bool.eq_false_iff.mpr hclears) actions
    constructor
    · simp [record, hsince', h.pending]
    · simp [record, hsince, h.staticCount, List.countP_append]
    · simp [record, hsince, h.evaluationFailed, List.any_append]

theorem remembers_replay (actions : List Action) : (fresh.replay actions).Remembers actions := by
  induction actions using List.reverseRecOn with
  | nil => exact ⟨rfl, rfl, rfl⟩
  | append_singleton actions a ih =>
      rw [replay_append_singleton]
      exact ih.perform a

/-! ### What becomes of a diagnostic -/

/-- The pending diagnostics that an action removes and hands to nobody. -/
def lost (s : Session) : Action → List Diagnostic
  | .drainSome count => s.pending.drop count
  | .reset => s.pending
  | .run _ | .parse _ | .drain | .record _ => []

/-- What leaves the session, action by action: what the action hands out, and what is
lost to it. -/
def departed (s : Session) : List Action → List Diagnostic
  | [] => []
  | a :: actions => (s.perform a).1.taken ++ s.lost a ++ (s.perform a).2.departed actions

/-- What was pending and what an action records is handed out, or lost, or pending. -/
theorem perform_conserves (s : Session) (a : Action) :
    s.pending ++ a.records = (s.perform a).1.taken ++ s.lost a ++ (s.perform a).2.pending := by
  rw [perform_snd]
  cases a with
  | run | parse | record => rfl
  | drain | drainSome | reset => simp [perform, Reply.taken, lost, drain, Action.records, isReset,
      clears, fresh]

theorem replay_conserves (s : Session) (actions : List Action) :
    s.pending ++ recorded actions = s.departed actions ++ (s.replay actions).pending := by
  induction actions generalizing s with
  | nil => simp [departed, replay]
  | cons a actions ih =>
      calc s.pending ++ recorded (a :: actions)
          = s.pending ++ a.records ++ recorded actions := (List.append_assoc ..).symm
        _ = (s.perform a).1.taken ++ s.lost a ++ ((s.perform a).2.pending ++ recorded actions) := by
          rw [perform_conserves, List.append_assoc]
        _ = (s.perform a).1.taken ++ s.lost a ++
            ((s.perform a).2.departed actions ++ (s.replay (a :: actions)).pending) := by
          rw [ih]
          rfl
        _ = s.departed (a :: actions) ++ (s.replay (a :: actions)).pending :=
          (List.append_assoc ..).symm

/-! ### Histories -/

/-- How bad an exit code is. -/
def severity (code : Nat) : Nat := if code = 65 then 2 else if code = 70 then 1 else 0

theorem severity_exitCode_le {s s' : Session} (hstatic : s.hasStaticErrors → s'.hasStaticErrors)
    (hfailed : s.evaluationFailed → s'.evaluationFailed) :
    severity s.exitCode ≤ severity s'.exitCode := by
  unfold exitCode
  revert hstatic hfailed
  cases s.hasStaticErrors <;> cases s'.hasStaticErrors <;> cases s.evaluationFailed <;>
    cases s'.evaluationFailed <;> decide

/-- Without a reset, what is remembered is added to. -/
theorem replay_without_reset {actions more : List Action} {s : Session}
    (h : s = fresh.replay actions) (hmore : .reset ∉ more) :
    (s.replay more).staticCount =
        s.staticCount + (recorded more).countP Diagnostic.isStatic ∧
      (s.replay more).evaluationFailed =
        (s.evaluationFailed || (recorded more).any (!·.isStatic)) := by
  have hsince := Action.since_append_of_all
    (fun a ha => Action.isReset_eq_false fun heq => hmore (heq ▸ ha)) actions
  have before := remembers_replay actions
  have after := remembers_replay (actions ++ more)
  rw [replay_append, ← h] at after
  rw [← h] at before
  rw [before.staticCount, before.evaluationFailed, after.staticCount, after.evaluationFailed,
    hsince, Action.recorded_append, List.countP_append, List.any_append]
  exact ⟨rfl, rfl⟩

/-- After every history of a session, pending is what was recorded since the last drain
or reset; the count, the flags and the exit code tell what was recorded since the last
reset. Until there is a reset, no flag is unset and the exit code gets no better. What was
recorded is, in order, what each action handed out or lost, and what is pending: nothing
is handed out twice. -/
theorem history_exact (actions : List Action) :
    let s := fresh.replay actions
    let found := recorded (since isReset actions)
    s.pending = recorded (since clears actions) ∧
      s.staticCount = found.countP Diagnostic.isStatic ∧
      (s.hasStaticErrors ↔ 0 < found.countP Diagnostic.isStatic) ∧
      (s.evaluationFailed ↔ ∃ d ∈ found, ¬d.isStatic) ∧
      s.exitCode = (if ∃ d ∈ found, d.isStatic then 65
        else if ∃ d ∈ found, ¬d.isStatic then 70 else 0) ∧
      (∀ more : List Action, .reset ∉ more →
        (s.hasStaticErrors → (s.replay more).hasStaticErrors) ∧
        (s.evaluationFailed → (s.replay more).evaluationFailed) ∧
        severity s.exitCode ≤ severity (s.replay more).exitCode) ∧
      recorded actions = fresh.departed actions ++ s.pending := by
  intro s found
  have hremembers : s.Remembers actions := remembers_replay actions
  have hstatic : s.hasStaticErrors ↔ 0 < found.countP Diagnostic.isStatic := by
    rw [hasStaticErrors, hremembers.staticCount, decide_eq_true_iff]
  have hfailed : s.evaluationFailed ↔ ∃ d ∈ found, ¬d.isStatic := by
    rw [hremembers.evaluationFailed, List.any_eq_true]
    simp only [Bool.not_eq_true', Bool.not_eq_true, found]
  refine ⟨hremembers.pending, hremembers.staticCount, hstatic, hfailed, ?_, ?_, ?_⟩
  · simp only [exitCode, hfailed, hstatic, List.countP_pos_iff]
  · intro more hmore
    obtain ⟨hcount, hflag⟩ := replay_without_reset rfl hmore
    have hstatic' : s.hasStaticErrors → (s.replay more).hasStaticErrors := by
      rw [hasStaticErrors, hasStaticErrors, hcount, decide_eq_true_iff, decide_eq_true_iff]
      exact Nat.lt_add_right _
    have hfailed' : s.evaluationFailed → (s.replay more).evaluationFailed := by
      intro h
      rw [hflag, h, Bool.true_or]
    exact ⟨hstatic', hfailed', severity_exitCode_le hstatic' hfailed'⟩
  · exact replay_conserves fresh actions

/-- A drain of which nothing is taken loses what was pending, but the exit code still
tells of it, whatever comes before the next reset. -/
theorem history_exact_of_dropped_drain :
    let s := fresh.replay [.run "1 +", .drainSome 0]
    .reset ∉ [Action.run "nil - 1", .drain] ∧ s.pending = [] ∧ s.exitCode = 65 ∧
      severity 65 ≤ severity (s.replay [.run "nil - 1", .drain]).exitCode := by
  intro s
  obtain ⟨hpending, -, -, -, -, hmore, -⟩ := history_exact [.run "1 +", .drainSome 0]
  have hcode : s.exitCode = 65 := by
    decide +kernel
  have hnone : .reset ∉ [Action.run "nil - 1", .drain] := by
    decide
  refine ⟨hnone, hpending, hcode, ?_⟩
  rw [← hcode]
  exact (hmore _ hnone).2.2

end Session

end LoxCalc
