import Mathlib.Logic.ExistsUnique
import LoxCalc.Session

/-!
# LoxCalc.Proofs.SourceEndings

How a source comes out of a session.

A source has static errors (`staticErrors`) or a tree (`treeOf?`), which may have a value or
an error. So it ends with a result, with static errors, or with one error of evaluation
(`Ending`). Which of them it is, the result and the diagnostics that are appended are
settled by the source alone (`Session.exists_endings`): what earlier sources left in
the session is neither looked at nor changed (`Session.ending_exact`).
-/

namespace LoxCalc

/-! ### Static errors -/

/-- Why the first expression of a source cannot be read, if it cannot. -/
def parseError? (source : String) : Option ParseError :=
  match (TokenStream.ofTokens (scan source).tokens).read.outcome with
  | .ok _ => none
  | .error e => some e

/-- The static errors of a source: those of scanning, in the order of the source, and
then that of reading if there is one. -/
def staticErrors (source : String) : List Diagnostic :=
  (scan source).errors.map .scan ++ (parseError? source).toList.map .parse

theorem parseError?_ne_none_iff {source : String} :
    parseError? source ≠ none ↔
      ∃ e, (TokenStream.ofTokens (scan source).tokens).read.outcome = .error e := by
  unfold parseError?
  split <;> rename_i h <;> simp [h]

theorem staticErrors_ne_nil_iff {source : String} :
    staticErrors source ≠ [] ↔ (scan source).errors ≠ [] ∨
      ∃ e, (TokenStream.ofTokens (scan source).tokens).read.outcome = .error e := by
  rw [← parseError?_ne_none_iff, staticErrors]
  cases parseError? source <;> simp

theorem mem_staticErrors_iff {source : String} {d : Diagnostic} :
    d ∈ staticErrors source ↔ (∃ e ∈ (scan source).errors, d = .scan e) ∨
      ∃ e, (TokenStream.ofTokens (scan source).tokens).read.outcome = .error e ∧ d = .parse e := by
  unfold staticErrors parseError?
  split <;> rename_i h <;> simp [h, eq_comm]

theorem errors_readSource (source : String) : (readSource source).errors = staticErrors source := by
  cases hread : (TokenStream.ofTokens (scan source).tokens).read.outcome <;>
    simp [readSource, staticErrors, parseError?, hread]

theorem isStatic_of_mem_staticErrors {source : String} {d : Diagnostic}
    (h : d ∈ staticErrors source) : d.isStatic := by
  rcases mem_staticErrors_iff.mp h with ⟨e, -, rfl⟩ | ⟨e, -, rfl⟩ <;> rfl

/-! ### Trees -/

/-- The tree of a source: that of its first expression, unless there are static errors. -/
def treeOf? (source : String) : Option Expr :=
  if staticErrors source = [] then
    (TokenStream.ofTokens (scan source).tokens).read.outcome.toOption
  else
    none

/-- The errors of evaluation of a source: the one of its tree, if that has no value. -/
def runtimeErrors (source : String) : List Diagnostic :=
  match treeOf? source with
  | none => []
  | some tree =>
    match tree.eval with
    | .ok _ => []
    | .error e => [.runtime e]

theorem mem_runtimeErrors_iff {source : String} {d : Diagnostic} :
    d ∈ runtimeErrors source ↔
      ∃ tree e, treeOf? source = some tree ∧ tree.eval = .error e ∧ d = .runtime e := by
  unfold runtimeErrors
  split
  · simp [*]
  · rename_i tree htree
    cases heval : tree.eval <;> simp [htree, heval]

theorem accepted?_readSource (source : String) :
    (readSource source).accepted? = treeOf? source := by
  have htree : (readSource source).tree? =
      (TokenStream.ofTokens (scan source).tokens).read.outcome.toOption := by
    unfold readSource
    cases hread : (TokenStream.ofTokens (scan source).tokens).read.outcome <;>
      simp [hread, Except.toOption]
  simp only [Reading.accepted?, errors_readSource, htree, treeOf?, List.isEmpty_iff]

theorem staticErrors_of_treeOf? {source : String} {tree : Expr}
    (h : treeOf? source = some tree) : staticErrors source = [] := by
  unfold treeOf? at h
  split at h
  · assumption
  · cases h

/-- A source without static errors has a tree. -/
theorem exists_treeOf? {source : String} (h : staticErrors source = []) :
    ∃ tree, treeOf? source = some tree := by
  rw [treeOf?, if_pos h]
  cases hread : (TokenStream.ofTokens (scan source).tokens).read.outcome with
  | ok tree => exact ⟨tree, rfl⟩
  | error e => exact absurd h (staticErrors_ne_nil_iff.mpr (.inr ⟨e, hread⟩))

/-! ### Endings -/

/-- The ways in which a source can come out. -/
inductive Ending where
  /-- There is a result, and nothing is wrong. -/
  | succeeded
  /-- Errors were found before evaluation. -/
  | rejected
  /-- The evaluation failed. -/
  | failed

/-- How a source comes out whose tree is finished in some way. The static errors and what
becomes of the tree tell the ending, the result and the diagnostics that are appended. -/
inductive Ending.Fits {α : Type} (finish : Expr → Except EvalError α) (source : String) :
    Ending → Option α → List Diagnostic → Prop where
  | succeeded {tree : Expr} {a : α} (tree_eq : treeOf? source = some tree)
      (finish_eq : finish tree = .ok a) : Fits finish source .succeeded (some a) []
  | rejected (ne_nil : staticErrors source ≠ []) :
      Fits finish source .rejected none (staticErrors source)
  | failed {tree : Expr} {e : EvalError} (tree_eq : treeOf? source = some tree)
      (finish_eq : finish tree = .error e) : Fits finish source .failed none [.runtime e]

section Fits

variable {α : Type} {finish : Expr → Except EvalError α} {source : String} {a b ending : Ending}
  {result : Option α} {found : List Diagnostic}

/-- No two endings fit the same. -/
theorem Ending.Fits.unique (ha : a.Fits finish source result found)
    (hb : b.Fits finish source result found) : a = b := by
  cases ha with
  | succeeded => cases hb; rfl
  | rejected hne =>
      generalize staticErrors source = errors at hb
      cases hb with
      | rejected => rfl
      | failed htree => exact absurd (staticErrors_of_treeOf? htree) hne
  | failed htree =>
      generalize hfound : [Diagnostic.runtime _] = found at hb
      cases hb with
      | rejected hne => exact absurd (staticErrors_of_treeOf? htree) hne
      | failed => rfl

theorem Ending.Fits.fits_iff (h : a.Fits finish source result found) :
    b.Fits finish source result found ↔ b = a :=
  ⟨fun h' => h'.unique h, fun heq => heq ▸ h⟩

/-- Only a failed evaluation appends something that is not static. -/
theorem Ending.Fits.any_not_isStatic_iff (h : ending.Fits finish source result found) :
    found.any (!·.isStatic) ↔ .failed = ending := by
  cases h with
  | succeeded => simp
  | rejected =>
      have hnone : (staticErrors source).any (!·.isStatic) = false := by
        rw [List.any_eq_false]
        intro d hd
        simp [isStatic_of_mem_staticErrors hd]
      simp [hnone]
  | failed => simp [Diagnostic.isStatic]

/-- Where a tree is finished by giving it out, nothing fails but what is static. -/
theorem Ending.Fits.isStatic_of_ok {tree? : Option Expr} (h : ending.Fits .ok source tree? found) :
    ∀ d ∈ found, d.isStatic := by
  cases h with
  | succeeded => exact fun d hd => absurd hd List.not_mem_nil
  | rejected => exact fun d => isStatic_of_mem_staticErrors
  | failed _ hfinish => cases hfinish

end Fits

namespace Session

/-- What is done with a source in the session `s`, where its tree is finished in some way, fits
one ending, with the result and the diagnostics of a new session, and these are all that is
added to the session. -/
structure ComesOut {α : Type} (s : Session) (finish : Expr → Except EvalError α)
    (source : String) (done inNew : Option α × Session) (found : List Diagnostic) : Prop where
  one_ending : ∃! ending : Ending, ending.Fits finish source done.1 found
  result_eq : done.1 = inNew.1
  found_eq : found = inNew.2.pending
  pending_eq : done.2.pending = s.pending ++ found
  staticCount_eq : done.2.staticCount = s.staticCount + found.countP Diagnostic.isStatic
  evaluationFailed_iff :
    done.2.evaluationFailed ↔
      s.evaluationFailed ∨ Ending.failed.Fits finish source done.1 found

theorem comesOut_record {α : Type} {finish : Expr → Except EvalError α} {source : String}
    {ending : Ending} {result : Option α} {found : List Diagnostic}
    (h : ending.Fits finish source result found) (s : Session) :
    s.ComesOut finish source (result, s.record found) (result, fresh.record found) found where
  one_ending := ⟨ending, h, fun _ h' => h'.unique h⟩
  result_eq := rfl
  found_eq := (List.nil_append found).symm
  pending_eq := rfl
  staticCount_eq := rfl
  evaluationFailed_iff := by
    rw [h.fits_iff, ← h.any_not_isStatic_iff, record, Bool.or_eq_true]

/-- A run evaluates the tree that is given out, and records the errors if there is none. -/
theorem run_eq (s : Session) (source : String) :
    s.run source =
      match (readSource source).accepted? with
      | none => (none, s.record (readSource source).errors)
      | some tree =>
        match tree.eval with
        | .ok v => (some v, s)
        | .error e => (none, s.record [.runtime e]) := by
  rw [run, parse_eq, accepted?_readSource, errors_readSource]
  cases htree : treeOf? source with
  | none => rfl
  | some tree =>
      have hstatic := staticErrors_of_treeOf? htree
      cases heval : tree.eval <;> simp only [hstatic, record_nil, heval]

/-- Everything that can become of a source, which is the same in every session. -/
inductive Course (source : String) : Prop where
  | succeeded {tree : Expr} {v : Value} (tree_eq : treeOf? source = some tree)
      (parse : ∀ s : Session, s.parse source = (some tree, s)) (eval : tree.eval = .ok v)
      (run : ∀ s : Session, s.run source = (some v, s))
  | rejected (errors_ne_nil : staticErrors source ≠ [])
      (parse : ∀ s : Session, s.parse source = (none, s.record (staticErrors source)))
      (run : ∀ s : Session, s.run source = (none, s.record (staticErrors source)))
  | failed {tree : Expr} {e : EvalError} (tree_eq : treeOf? source = some tree)
      (parse : ∀ s : Session, s.parse source = (some tree, s)) (eval : tree.eval = .error e)
      (run : ∀ s : Session, s.run source = (none, s.record [.runtime e]))

theorem course (source : String) : Course source := by
  by_cases hstatic : staticErrors source = []
  · obtain ⟨tree, htree⟩ := exists_treeOf? hstatic
    have hparse : ∀ s : Session, s.parse source = (some tree, s) := by
      intro s
      rw [parse_eq, accepted?_readSource, htree, errors_readSource, hstatic, record_nil]
    cases heval : tree.eval with
    | ok v =>
        refine .succeeded htree hparse heval fun s => ?_
        simp only [run_eq, accepted?_readSource, htree, heval]
    | error e =>
        refine .failed htree hparse heval fun s => ?_
        simp only [run_eq, accepted?_readSource, htree, heval]
  · have hnone : (readSource source).accepted? = none := by
      rw [accepted?_readSource, treeOf?, if_neg hstatic]
    refine .rejected hstatic (fun s => ?_) fun s => ?_
    · rw [parse_eq, hnone, errors_readSource]
    · rw [run_eq, hnone, errors_readSource]

/-- What a source comes to is settled without the session: how a run and a parse of it
end, what they give and what they record. -/
theorem exists_endings (source : String) :
    ∃ (a b : Ending) (value? : Option Value) (tree? : Option Expr) (ran parsed : List Diagnostic),
      (∀ s : Session, s.run source = (value?, s.record ran) ∧
        s.parse source = (tree?, s.record parsed)) ∧
      a.Fits Expr.eval source value? ran ∧ b.Fits .ok source tree? parsed ∧
      (a = .rejected ↔ staticErrors source ≠ []) ∧ (b = .rejected ↔ a = .rejected) ∧
      (a = .rejected → parsed = ran) := by
  cases course source with
  | @succeeded tree v htree hparse heval hrun =>
      have hstatic := staticErrors_of_treeOf? htree
      exact ⟨.succeeded, .succeeded, some v, some tree, [], [],
        fun s => by rw [record_nil]; exact ⟨hrun s, hparse s⟩,
        .succeeded htree heval, .succeeded htree rfl, by simp [hstatic]⟩
  | rejected hstatic hparse hrun =>
      exact ⟨.rejected, .rejected, none, none, _, _, fun s => ⟨hrun s, hparse s⟩,
        .rejected hstatic, .rejected hstatic, by simp [hstatic]⟩
  | @failed tree e htree hparse heval hrun =>
      have hstatic := staticErrors_of_treeOf? htree
      exact ⟨.failed, .succeeded, none, some tree, [.runtime e], [],
        fun s => ⟨hrun s, by rw [record_nil]; exact hparse s⟩,
        .failed htree heval, .succeeded htree rfl, by simp [hstatic]⟩

/-- A run records the errors of a source in every session. -/
theorem run_snd (s : Session) (source : String) :
    (s.run source).2 = s.record (staticErrors source ++ runtimeErrors source) := by
  cases course source with
  | succeeded htree _ heval hrun =>
      simp only [hrun, staticErrors_of_treeOf? htree, runtimeErrors, htree, heval, List.append_nil,
        record_nil]
  | rejected hne _ hrun =>
      simp only [hrun, runtimeErrors, treeOf?, if_neg hne, List.append_nil]
  | failed htree _ heval hrun =>
      simp only [hrun, staticErrors_of_treeOf? htree, runtimeErrors, htree, heval,
        List.nil_append]

/-- A parse gives the tree of a source in every session. -/
theorem parse_fst (s : Session) (source : String) : (s.parse source).1 = treeOf? source := by
  rw [parse_eq, accepted?_readSource]

/-- A parse records the static errors of a source in every session. -/
theorem parse_snd (s : Session) (source : String) :
    (s.parse source).2 = s.record (staticErrors source) := by
  rw [parse_eq, errors_readSource]

/-- In every session, whatever it holds, a run and a parse of a source fit just one of
the endings each, as in a new session. They are rejected for the same sources, those that
are scanned with errors or whose first expression cannot be read, and then with the same
diagnostics. A parse records nothing but static errors, and gives the tree of every other
source. -/
theorem ending_exact (s : Session) (source : String) :
    ∃ ran parsed : List Diagnostic,
      s.ComesOut Expr.eval source (s.run source) (fresh.run source) ran ∧
      s.ComesOut .ok source (s.parse source) (fresh.parse source) parsed ∧
      (Ending.rejected.Fits Expr.eval source (s.run source).1 ran ↔ (scan source).errors ≠ [] ∨
        ∃ e, (TokenStream.ofTokens (scan source).tokens).read.outcome = .error e) ∧
      (Ending.rejected.Fits .ok source (s.parse source).1 parsed ↔
        Ending.rejected.Fits Expr.eval source (s.run source).1 ran) ∧
      (Ending.rejected.Fits Expr.eval source (s.run source).1 ran → parsed = ran) ∧
      ∀ d ∈ parsed, d.isStatic := by
  obtain ⟨a, b, value?, tree?, ran, parsed, h, hran, hparsed, hstatic, hsame, heq⟩ :=
    exists_endings source
  refine ⟨ran, parsed, ?_⟩
  rw [(h s).1, (h s).2, (h fresh).1, (h fresh).2, ← staticErrors_ne_nil_iff]
  refine ⟨comesOut_record hran s, comesOut_record hparsed s, ?_⟩
  rw [hran.fits_iff, hparsed.fits_iff]
  exact ⟨eq_comm.trans hstatic, (eq_comm.trans hsame).trans eq_comm, fun ha => heq ha.symm,
    hparsed.isStatic_of_ok⟩

end Session

end LoxCalc
