import LoxCalc.CommandLine.Arguments
import LoxCalc.CommandLine.Directory
import LoxCalc.Expr.Printer
import LoxCalc.Session

/-!
# LoxCalc.CommandLine.Run

What the command prints, and its exit code.

* With a script, it shows the value or the tree of the script's first expression and
  the diagnostics, and the session's exit code is its own.
* At the prompt it does the same for each line that is typed in. Between lines, the
  session is drained and reset.
-/

namespace LoxCalc

/-- What is written to the two outputs. -/
structure Printed where
  out : String
  err : String
deriving DecidableEq

namespace Printed

/-- First one thing, then another. -/
def append (p q : Printed) : Printed := ⟨p.out ++ q.out, p.err ++ q.err⟩

instance : Append Printed := ⟨append⟩

/-- A text on the standard output. -/
def onOut (text : String) : Printed := ⟨text, ""⟩

/-- A text on the error output. -/
def onErr (text : String) : Printed := ⟨"", text⟩

end Printed

/-- What a run of the command comes to. -/
structure Output where
  printed : Printed
  code : Nat
deriving DecidableEq

/-! ### One source -/

namespace Session

/-- The result of a source: its tree in parenthesised form, or its value. -/
def resultText (s : Session) (ast : Bool) (source : String) : Option String × Session :=
  if ast then
    let (tree?, s) := s.parse source
    (tree?.map Expr.debugText, s)
  else
    let (value?, s) := s.run source
    (value?.map Value.text, s)

/-- Prints the result of a source if there is one, and then the diagnostics. -/
def print (s : Session) (ast : Bool) (source : String) : Printed × Session :=
  let (result?, s) := s.resultText ast source
  let (diagnostics, s) := s.drain
  (⟨(result?.map (· ++ "\n")).getD "", String.join (diagnostics.map (·.text ++ "\n"))⟩, s)

end Session

/-! ### Scripts -/

/-- The output for a script that could or could not be read. -/
def scriptOutput (ast : Bool) (path : String) : Except ReadFault String → Output
  | .error fault => ⟨.onErr ("failed to open " ++ path ++ ": " ++ fault.message ++ "\n"), 74⟩
  | .ok source =>
    let (printed, s) := Session.fresh.print ast source
    ⟨printed, s.exitCode⟩

/-! ### The prompt -/

/-- Cuts the input after each newline. -/
def inputLines : List UInt8 → List (List UInt8)
  | [] => []
  | byte :: rest =>
    if byte = 10 then
      [byte] :: inputLines rest
    else
      match inputLines rest with
      | [] => [[byte]]
      | line :: lines => (byte :: line) :: lines

/-- Nothing is lost between the lines. -/
theorem flatten_inputLines (input : List UInt8) : (inputLines input).flatten = input := by
  induction input with
  | nil => rfl
  | cons byte rest ih =>
      rw [inputLines]
      split
      · rw [List.flatten_cons, ih]
        rfl
      · split
        · rename_i h
          rw [h] at ih
          rw [← ih]
          rfl
        · rename_i line lines h
          rw [h] at ih
          rw [← ih]
          rfl

/-- What is written before a line is read. -/
def promptText : String := "> "

/-- What is written at the end of the input. -/
def farewell : String := "Received EOF, exiting.\n"

/-- What is written for a line that is not text. -/
def lineFault : String := "failed to read line: " ++ ReadFault.notText.message ++ "\n"

/-- The output for one line, and the session for the next one. A line that is not
text gives none. -/
def promptLine (s : Session) (ast : Bool) (line : List UInt8) : Option (Printed × Session) :=
  match decodeText? line with
  | none => none
  | some source =>
    let (printed, s) := s.print ast source
    some (printed, s.reset)

/-- The output for the lines of a session at the prompt. -/
def promptOutput (s : Session) (ast : Bool) : List (List UInt8) → Output
  | [] => ⟨.onOut (promptText ++ farewell), 0⟩
  | line :: lines =>
    match promptLine s ast line with
    | none => ⟨.onOut promptText ++ .onErr lineFault, 74⟩
    | some (printed, s) =>
      let later := promptOutput s ast lines
      ⟨.onOut promptText ++ printed ++ later.printed, later.code⟩

/-! ### Invocations -/

/-- The texts about the command that come from whatever reads its arguments. They are not
made here, and nothing depends on how they are worded. -/
structure Wording where
  help : String
  /-- The text for a mistake in the arguments. -/
  usage : String

/-- Stands in for texts that are not at hand. -/
def Wording.placeholder : Wording := ⟨"<help>", "<usage>"⟩

/-- The name and version of the command. -/
def versionText : String := "rlox 0.1.0\n"

/-- The output of an invocation in a directory, with an input. -/
def Invocation.output (d : Directory) (input : List UInt8) (invocation : Invocation)
    (w : Wording := .placeholder) : Output :=
  match invocation with
  | help => ⟨.onOut w.help, 0⟩
  | version => ⟨.onOut versionText, 0⟩
  | misuse => ⟨.onErr w.usage, 64⟩
  | script ast path => scriptOutput ast path (d.read path)
  | prompt ast => promptOutput .fresh ast (inputLines input)

end LoxCalc
