/-!
# LoxCalc.CommandLine.Arguments

What the arguments of the command ask for. They are looked at from left to right,
and the first one that asks for help or for the version, or that is a mistake,
settles it.
-/

namespace LoxCalc

/-- What the command is asked to do. -/
inductive Invocation where
  /-- To explain itself. -/
  | help
  /-- To tell its version. -/
  | version
  /-- Nothing that it knows. -/
  | misuse
  /-- To work on a script, showing trees instead of values if `ast`. -/
  | script (ast : Bool) (path : String)
  /-- To work on what is typed in. -/
  | prompt (ast : Bool)
deriving DecidableEq

/-- A single argument before the separator. -/
inductive Argument where
  | ast
  | help
  | version
  /-- After a separator, all arguments are paths. -/
  | separator
  | path (p : String)
  | unknown
deriving DecidableEq

/-- The meaning of an argument. In a group of short options only the first one
matters, for none of them goes on after it. A single hyphen is a path. -/
def Argument.ofString (s : String) : Argument :=
  if s = "--" then separator
  else if s = "--ast" then ast
  else if s = "--help" then help
  else if s = "--version" then version
  else
    match s.toList with
    | ['-'] => path s
    | '-' :: 'h' :: _ => help
    | '-' :: 'V' :: _ => version
    | '-' :: _ => unknown
    | _ => path s

namespace Invocation

/-- The invocation when no argument is left. -/
def ofChoices (ast : Bool) : Option String → Invocation
  | some path => script ast path
  | none => prompt ast

/-- The invocation when all other arguments are paths: there is at most one script,
and its path is not empty. -/
def ofPaths (ast : Bool) (chosen? : Option String) : List String → Invocation
  | [] => ofChoices ast chosen?
  | path :: rest =>
    if path.isEmpty || chosen?.isSome then misuse else ofPaths ast (some path) rest

/-- The invocation when options may follow. The tree option stands at most once. -/
def ofOptions (ast : Bool) (chosen? : Option String) : List String → Invocation
  | [] => ofChoices ast chosen?
  | argument :: rest =>
    match Argument.ofString argument with
    | .help => help
    | .version => version
    | .unknown => misuse
    | .separator => ofPaths ast chosen? rest
    | .ast => if ast then misuse else ofOptions true chosen? rest
    | .path path =>
      if path.isEmpty || chosen?.isSome then misuse else ofOptions ast (some path) rest

/-- The invocation that the arguments of the command make. -/
def ofArguments (arguments : List String) : Invocation := ofOptions false none arguments

end Invocation

end LoxCalc
