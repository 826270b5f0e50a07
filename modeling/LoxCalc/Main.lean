import LoxCalc.CommandLine.Run

/-!
# LoxCalc.Main

The command itself: it takes its arguments, its input and the scripts from the
system, and writes what the library says.
-/

namespace LoxCalc

/-- Writes to the two outputs. -/
def Printed.write (p : Printed) : IO Unit := do
  let out ← IO.getStdout
  out.putStr p.out
  out.flush
  (← IO.getStderr).putStr p.err

/-- Writes all that a run comes to and gives its exit code. -/
def Output.write (o : Output) : IO UInt32 := do
  o.printed.write
  return .ofNat o.code

/-- Reads a script from the file system. -/
def readScript (path : String) : IO (Except ReadFault String) := do
  try
    let content ← IO.FS.readBinFile path
    match decodeText? content.toList with
    | some text => return .ok text
    | none => return .error .notText
  catch e =>
    match e with
    -- A directory can be opened, but not read; an error of reading names no file.
    | .inappropriateType none .. => return .error .isDirectory
    | .inappropriateType (some _) .. => return .error .notDirectory
    | .noFileOrDirectory .. => return .error .missing
    | _ => throw e

/-- Reads bytes up to and with a newline, or to the end of the input. -/
partial def readLine (input : IO.FS.Stream) (line : List UInt8) : IO (List UInt8) := do
  let bytes ← input.read 1
  match bytes.toList with
  | [] => return line.reverse
  | byte :: _ => if byte = 10 then return (byte :: line).reverse else readLine input (byte :: line)

/-- The session at the prompt, one line after the other. -/
partial def converse (ast : Bool) (s : Session) : IO UInt32 := do
  (Printed.onOut promptText).write
  match ← readLine (← IO.getStdin) [] with
  | [] =>
    (Printed.onOut farewell).write
    return 0
  | line =>
    match promptLine s ast line with
    | none =>
      (Printed.onErr lineFault).write
      return 74
    | some (printed, s) =>
      printed.write
      converse ast s

end LoxCalc

open LoxCalc in
def main (arguments : List String) : IO UInt32 := do
  match Invocation.ofArguments arguments with
  | .script ast path => (scriptOutput ast path (← readScript path)).write
  | .prompt ast => converse ast .fresh
  | invocation => (invocation.output ⟨[]⟩ []).write
