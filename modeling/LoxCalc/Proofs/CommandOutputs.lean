import LoxCalc.CommandLine.Run
import LoxCalc.Proofs.SourceEndings

/-!
# LoxCalc.Proofs.CommandOutputs

What the command prints, and its exit code.

* A script shows the ending of its source (`Ending.Shows`), and only a static error keeps
  its tree from being shown (`script_outputs`).
* The prompt prints for each line what a script of that line prints, up to the first line
  that is not text (`prompt_outputs`). Every line meets a new session, since the one
  before it is reset.
-/

namespace LoxCalc

/-! ### Files -/

/-- The bytes are the encoding of a text. -/
def IsText (bytes : List UInt8) : Prop := ∃ text : String, text.toUTF8 = ⟨bytes.toArray⟩

theorem decodeText?_eq_some_iff {bytes : List UInt8} {text : String} :
    decodeText? bytes = some text ↔ text.toUTF8 = ⟨bytes.toArray⟩ := by
  unfold decodeText? String.fromUTF8?
  constructor
  · intro h
    split at h
    · obtain rfl := Option.some.inj h
      rfl
    · cases h
  · intro h
    have hvalid : ByteArray.IsValidUTF8 ⟨bytes.toArray⟩ := h ▸ text.isValidUTF8
    rw [dif_pos hvalid, Option.some.injEq, ← String.toByteArray_inj]
    exact h.symm

theorem decodeText?_eq_none_iff {bytes : List UInt8} :
    decodeText? bytes = none ↔ ¬IsText bytes := by
  simp only [IsText, ← decodeText?_eq_some_iff, ← Option.isSome_iff_exists,
    Option.not_isSome_iff_eq_none]

namespace Directory

/-- A directory with a file of these bytes, and nothing else. -/
def ofFile (content : List UInt8) : Directory := ⟨[(["x"], .file content)]⟩

theorem find_ofFile (content : List UInt8) :
    (ofFile content).find "x" = .ok (.file content) := by
  -- A split of a string does not reduce by itself: one step for the character, one for the end.
  have hsplit : "x".splitOn "/" = ["x"] := by
    have hslash : ("/" == "") = false := by decide
    rw [String.splitOn, hslash, if_neg Bool.false_ne_true, String.splitOnAux, if_neg (by decide),
      if_neg (by decide), String.splitOnAux, if_pos (by decide)]
    decide +kernel
  rw [find, hsplit]
  rfl

theorem read_of_find {d : Directory} {path source : String} {content : List UInt8}
    (hfind : d.find path = .ok (.file content)) (hsource : source.toUTF8 = ⟨content.toArray⟩) :
    d.read path = .ok source := by
  rw [read, hfind]
  dsimp only
  rw [decodeText?_eq_some_iff.mpr hsource]

end Directory

/-! ### Scripts -/

/-- The output shows how a source comes out: its value, its static errors, or the error
of its evaluation. -/
inductive Ending.Shows (source : String) : Ending → Output → Prop where
  | succeeded {tree : Expr} {v : Value} (parse : (Session.fresh.parse source).1 = some tree)
      (eval : tree.eval = .ok v) : Shows source .succeeded ⟨⟨v.text ++ "\n", ""⟩, 0⟩
  | rejected (ne_nil : staticErrors source ≠ []) :
      Shows source .rejected
        ⟨⟨"", String.join ((staticErrors source).map fun d => d.text ++ "\n")⟩, 65⟩
  | failed {tree : Expr} {e : EvalError} (parse : (Session.fresh.parse source).1 = some tree)
      (eval : tree.eval = .error e) :
      Shows source .failed ⟨⟨"", (Diagnostic.runtime e).text ++ "\n"⟩, 70⟩

/-- The exit code of a script, by how its source comes out. -/
def Ending.code : Ending → Nat
  | succeeded => 0
  | rejected => 65
  | failed => 70

theorem Ending.Shows.code_eq {source : String} {ending : Ending} {out : Output}
    (h : ending.Shows source out) : out.code = ending.code := by
  cases h <;> rfl

/-- An output shows no two endings: it has one exit code. -/
theorem Ending.Shows.unique {source : String} {a b : Ending} {out : Output}
    (ha : a.Shows source out) (hb : b.Shows source out) : a = b := by
  have hcode : a.code = b.code := ha.code_eq.symm.trans hb.code_eq
  cases a <;> cases b <;> first | rfl | exact absurd hcode (by decide)

theorem Ending.Shows.code_eq_iff {source : String} {ending : Ending} {out : Output}
    (h : ending.Shows source out) : out.code = 65 ↔ ending = .rejected := by
  rw [h.code_eq]
  cases ending <;> simp [code]

theorem exitCode_record_staticErrors {source : String} (h : staticErrors source ≠ []) :
    (Session.fresh.record (staticErrors source)).exitCode = 65 := by
  have hcount : 0 < (staticErrors source).countP Diagnostic.isStatic := by
    rw [List.countP_eq_length.mpr fun d hd => isStatic_of_mem_staticErrors hd]
    exact List.length_pos_iff.mpr h
  have hstatic : (Session.fresh.record (staticErrors source)).hasStaticErrors = true := by
    simpa [Session.record, Session.hasStaticErrors, Session.fresh] using hcount
  rw [Session.exitCode, if_pos hstatic]

/-- The output of a script that can be read, by what becomes of its source. -/
theorem scriptOutput_ok (ast : Bool) (path source : String) :
    scriptOutput ast path (.ok source) =
      let (result?, s) := Session.fresh.resultText ast source
      ⟨⟨(result?.map (· ++ "\n")).getD "", String.join (s.pending.map fun d => d.text ++ "\n")⟩,
        s.exitCode⟩ := rfl

/-- A script shows how its source comes out. With the tree option it shows the same if
there are static errors, and otherwise the tree, whether it has a value or not. -/
theorem scriptOutput_shows (path source : String) :
    ∃ ending : Ending, ending.Shows source (scriptOutput false path (.ok source)) ∧
      (ending = .rejected ∧
          scriptOutput true path (.ok source) = scriptOutput false path (.ok source) ∨
        ending ≠ .rejected ∧ ∃ tree, (Session.fresh.parse source).1 = some tree ∧
          scriptOutput true path (.ok source) = ⟨⟨tree.debugText ++ "\n", ""⟩, 0⟩) := by
  simp only [scriptOutput_ok, Session.resultText, if_true, Bool.false_eq_true, if_false]
  cases Session.course source with
  | @succeeded tree v _ hparse heval hrun =>
      have htree : (Session.fresh.parse source).1 = some tree := by
        rw [hparse]
      rw [hparse, hrun]
      exact ⟨.succeeded, .succeeded htree heval, .inr ⟨nofun, tree, rfl, rfl⟩⟩
  | rejected hne hparse hrun =>
      rw [hparse, hrun]
      dsimp only
      rw [exitCode_record_staticErrors hne]
      exact ⟨.rejected, .rejected hne, .inl ⟨rfl, rfl⟩⟩
  | @failed tree e _ hparse heval hrun =>
      have htree : (Session.fresh.parse source).1 = some tree := by
        rw [hparse]
      have htext : String.join [(Diagnostic.runtime e).text ++ "\n"] =
          (Diagnostic.runtime e).text ++ "\n" := by
        simp
      rw [hparse, hrun]
      refine ⟨.failed, ?_, .inr ⟨nofun, tree, rfl, rfl⟩⟩
      have hshows := Ending.Shows.failed htree heval
      rw [← htext] at hshows
      exact hshows

/-- A script that can be read shows just one ending of its source. With the tree option,
static errors show in the same way, and in place of any other ending the tree, with the
exit code of a success. -/
theorem script_outputs {d : Directory} {path source : String} (h : d.read path = .ok source)
    (input : List UInt8) (w : Wording) :
    let plain := (Invocation.script false path).output d input w
    let shown := (Invocation.script true path).output d input w
    (∃! ending : Ending, ending.Shows source plain) ∧
      (shown.code = 65 ↔ plain.code = 65) ∧
      (shown.code = 65 → shown = plain) ∧
      (shown.code ≠ 65 → ∃ tree, (Session.fresh.parse source).1 = some tree ∧
        shown = ⟨⟨tree.debugText ++ "\n", ""⟩, 0⟩) := by
  obtain ⟨ending, hshows, hshown⟩ := scriptOutput_shows path source
  simp only [Invocation.output, h]
  refine ⟨⟨ending, hshows, fun _ h' => h'.unique hshows⟩, ?_⟩
  rcases hshown with ⟨hrejected, hshown⟩ | ⟨hne, tree, htree, hshown⟩
  · have hcode := hshows.code_eq_iff.mpr hrejected
    rw [hshown]
    exact ⟨Iff.rfl, fun _ => rfl, fun hne => absurd hcode hne⟩
  · have hcode : (scriptOutput true path (.ok source)).code = 0 := by
      rw [hshown]
    rw [hshows.code_eq_iff, hcode]
    exact ⟨⟨nofun, fun h => absurd h hne⟩, nofun, fun _ => ⟨tree, htree, hshown⟩⟩

/-- A script whose evaluation fails: with the tree option, it does not. -/
theorem script_outputs_division :
    let d := Directory.ofFile [49, 47, 48]
    d.read "x" = .ok "1/0" ∧
      (Invocation.script false "x").output d [] =
        ⟨⟨"", "Division by zero.\n[line 1]\n"⟩, 70⟩ ∧
      ∃ tree, (Session.fresh.parse "1/0").1 = some tree ∧
        (Invocation.script true "x").output d [] = ⟨⟨tree.debugText ++ "\n", ""⟩, 0⟩ := by
  intro d
  have hread : d.read "x" = .ok "1/0" :=
    Directory.read_of_find (Directory.find_ofFile _) rfl
  have hplain : (Invocation.script false "x").output d [] =
      ⟨⟨"", "Division by zero.\n[line 1]\n"⟩, 70⟩ := by
    rw [Invocation.output, hread]
    decide +kernel
  obtain ⟨-, hcode, -, hshown⟩ := script_outputs hread [] .placeholder
  refine ⟨hread, hplain, hshown fun h => ?_⟩
  rw [hcode, hplain] at h
  cases h

/-! ### Lines -/

/-- The input is cut into lines: each ends with a newline, the only one in it, except that
the last one may end with the input, if it is not empty. -/
inductive IsLines : List UInt8 → List (List UInt8) → Prop where
  | nil : IsLines [] []
  | last {line : List UInt8} (ne_nil : line ≠ []) (open_line : 10 ∉ line) : IsLines line [line]
  | cons {line rest : List UInt8} {lines : List (List UInt8)} (open_line : 10 ∉ line)
      (others : IsLines rest lines) : IsLines (line ++ 10 :: rest) ((line ++ [10]) :: lines)

theorem inputLines_append {line : List UInt8} (h : 10 ∉ line) (rest : List UInt8) :
    inputLines (line ++ 10 :: rest) = (line ++ [10]) :: inputLines rest := by
  induction line with
  | nil => rw [List.nil_append, inputLines, if_pos rfl, List.nil_append]
  | cons byte line ih =>
      rw [List.mem_cons, not_or] at h
      rw [List.cons_append, inputLines, if_neg (Ne.symm h.1), ih h.2]
      rfl

theorem inputLines_last {line : List UInt8} (hne : line ≠ []) (h : 10 ∉ line) :
    inputLines line = [line] := by
  induction line with
  | nil => exact absurd rfl hne
  | cons byte line ih =>
      rw [List.mem_cons, not_or] at h
      rw [inputLines, if_neg (Ne.symm h.1)]
      cases line with
      | nil => rfl
      | cons next line => rw [ih (List.cons_ne_nil next line) h.2]

theorem IsLines.begin {byte : UInt8} {line rest : List UInt8} {lines : List (List UInt8)}
    (h : IsLines rest (line :: lines)) (hbyte : byte ≠ 10) :
    IsLines (byte :: rest) ((byte :: line) :: lines) := by
  cases h with
  | last ne_nil open_line =>
      exact .last (List.cons_ne_nil _ _) (List.not_mem_cons_of_ne_of_not_mem hbyte.symm open_line)
  | @cons line rest lines open_line others =>
      have hopen : 10 ∉ byte :: line := List.not_mem_cons_of_ne_of_not_mem hbyte.symm open_line
      exact .cons hopen others

theorem isLines_inputLines (input : List UInt8) : IsLines input (inputLines input) := by
  induction input with
  | nil => exact .nil
  | cons byte rest ih =>
      rw [inputLines]
      split
      · rename_i hbyte
        subst hbyte
        have hopen : (10 : UInt8) ∉ [] := List.not_mem_nil
        exact .cons hopen ih
      · rename_i hbyte
        split
        · rename_i hnil
          have hrest : rest = [] := by
            rw [← flatten_inputLines rest, hnil]
            rfl
          subst hrest
          exact .last (List.cons_ne_nil _ _) (by simpa using Ne.symm hbyte)
        · rename_i line lines hlines
          rw [hlines] at ih
          exact ih.begin hbyte

/-- There is one way to cut an input into lines. -/
theorem isLines_iff {input : List UInt8} {lines : List (List UInt8)} :
    IsLines input lines ↔ lines = inputLines input := by
  constructor
  · intro h
    induction h with
    | nil => rfl
    | last ne_nil open_line => rw [inputLines_last ne_nil open_line]
    | cons open_line _ ih => rw [inputLines_append open_line, ih]
  · rintro rfl
    exact isLines_inputLines input

/-! ### The prompt -/

/-- The output for a script with just this content. -/
def scriptOf (ast : Bool) (content : List UInt8) : Output :=
  (Invocation.script ast "x").output (.ofFile content) []

/-- It does not matter where the script lies, nor what is typed in, nor how the command words
what it says about itself. -/
theorem output_of_find {ast : Bool} {d : Directory} {path : String} {content : List UInt8}
    (hfind : d.find path = .ok (.file content)) (htext : IsText content) (input : List UInt8)
    (w : Wording) : (Invocation.script ast path).output d input w = scriptOf ast content := by
  obtain ⟨source, hsource⟩ := htext
  rw [scriptOf, Invocation.output, Invocation.output, Directory.read_of_find hfind hsource,
    Directory.read_of_find (Directory.find_ofFile content) hsource]
  rfl

/-- What scripts of these lines print, each after the prompt. -/
def scriptsPrinted (ast : Bool) (lines : List (List UInt8)) : Printed :=
  ⟨String.join (lines.map fun line => "> " ++ (scriptOf ast line).printed.out),
    String.join (lines.map fun line => (scriptOf ast line).printed.err)⟩

theorem Printed.append_assoc (p q r : Printed) : p ++ q ++ r = p ++ (q ++ r) := by
  have append_eq (a b : Printed) : a ++ b = ⟨a.out ++ b.out, a.err ++ b.err⟩ := rfl
  simp only [append_eq, String.append_assoc]

theorem scriptsPrinted_cons (ast : Bool) (line : List UInt8) (lines : List (List UInt8)) :
    scriptsPrinted ast (line :: lines) =
      .onOut promptText ++ (scriptOf ast line).printed ++ scriptsPrinted ast lines := by
  have herr : (scriptOf ast line).printed.err = "" ++ (scriptOf ast line).printed.err :=
    String.empty_append.symm
  rw [scriptsPrinted, List.map_cons, List.map_cons, String.join_cons, String.join_cons, herr]
  rfl

/-- A line is dealt with like a script of it, and leaves a new session. -/
theorem promptLine_fresh {line : List UInt8} (h : IsText line) (ast : Bool) :
    promptLine .fresh ast line = some ((scriptOf ast line).printed, .fresh) := by
  obtain ⟨source, hsource⟩ := h
  rw [promptLine, decodeText?_eq_some_iff.mpr hsource, scriptOf, Invocation.output,
    Directory.read_of_find (Directory.find_ofFile line) hsource]
  rfl

theorem promptOutput_cons {line : List UInt8} (h : IsText line) (ast : Bool)
    (lines : List (List UInt8)) :
    promptOutput .fresh ast (line :: lines) =
      ⟨.onOut promptText ++ (scriptOf ast line).printed ++ (promptOutput .fresh ast lines).printed,
        (promptOutput .fresh ast lines).code⟩ := by
  rw [promptOutput, promptLine_fresh h]

/-- The lines of a new session at the prompt give what scripts of them give, up to the
first one that is not text. -/
theorem promptOutput_fresh (ast : Bool) (lines : List (List UInt8)) :
    ((∀ line ∈ lines, IsText line) ∧
        promptOutput .fresh ast lines =
          ⟨scriptsPrinted ast lines ++ .onOut "> Received EOF, exiting.\n", 0⟩) ∨
      ∃ before line after, lines = before ++ line :: after ∧ (∀ l ∈ before, IsText l) ∧
        ¬IsText line ∧
        promptOutput .fresh ast lines =
          ⟨scriptsPrinted ast before ++
            ⟨"> ", "failed to read line: stream did not contain valid UTF-8\n"⟩, 74⟩ := by
  -- Every line leaves a new session, so the induction has no session to speak of.
  induction lines with
  | nil => exact .inl ⟨fun _ h => absurd h List.not_mem_nil, rfl⟩
  | cons line lines ih =>
      by_cases hline : IsText line
      · rw [promptOutput_cons hline]
        rcases ih with ⟨hall, hout⟩ | ⟨before, fault, after, rfl, hbefore, hfault, hout⟩
        · refine .inl ⟨List.forall_mem_cons.mpr ⟨hline, hall⟩, ?_⟩
          simp only [hout, scriptsPrinted_cons, Printed.append_assoc]
        · refine .inr ⟨line :: before, fault, after, rfl,
            List.forall_mem_cons.mpr ⟨hline, hbefore⟩, hfault, ?_⟩
          simp only [hout, scriptsPrinted_cons, Printed.append_assoc]
      · refine .inr ⟨[], line, lines, rfl, fun _ h => absurd h List.not_mem_nil, hline, ?_⟩
        rw [promptOutput, promptLine, decodeText?_eq_none_iff.mpr hline]
        rfl

/-- The prompt is a script for each line. An input is cut into lines in one way. If all of
them are text, then each prints, after the prompt, what a script of just that line prints,
wherever it lies, and the command succeeds. If not, this is so for the lines before the
first one that is not text, which cannot be read. -/
theorem prompt_outputs (ast : Bool) (d : Directory) (input : List UInt8) (w : Wording) :
    ∃ lines, (∀ others, IsLines input others ↔ others = lines) ∧
      (∀ line ∈ lines, IsText line → ∀ (d : Directory) path input,
        d.find path = .ok (.file line) →
          (Invocation.script ast path).output d input w = scriptOf ast line) ∧
      (((∀ line ∈ lines, IsText line) ∧
          (Invocation.prompt ast).output d input w =
            ⟨scriptsPrinted ast lines ++ .onOut "> Received EOF, exiting.\n", 0⟩) ∨
        ∃ before line after, lines = before ++ line :: after ∧ (∀ l ∈ before, IsText l) ∧
          ¬IsText line ∧
          (Invocation.prompt ast).output d input w =
            ⟨scriptsPrinted ast before ++
              ⟨"> ", "failed to read line: stream did not contain valid UTF-8\n"⟩, 74⟩) := by
  refine ⟨inputLines input, fun others => isLines_iff, ?_, promptOutput_fresh ast _⟩
  intro line _ htext d path input hfind
  exact output_of_find hfind htext input w

/-- The newline that is read with a line puts the end of the line's input on line 2. -/
example :
    (Invocation.prompt false).output ⟨[]⟩ "1 +\n\"a\" + \"b\"\n".toUTF8.data.toList =
      ⟨⟨"> > ab\n> Received EOF, exiting.\n", "[line 2] Error at end: Expect expression.\n"⟩, 0⟩ := by
  decide +kernel

end LoxCalc
