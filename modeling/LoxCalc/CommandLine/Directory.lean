/-!
# LoxCalc.CommandLine.Directory

The files that scripts are read from, as data: a working directory with files and
further directories in it, and how a path leads to a file.

What lies above the working directory is not known, apart from being there.
-/

namespace LoxCalc

/-- Why a script cannot be read. -/
inductive ReadFault where
  /-- Nothing has that name. -/
  | missing
  /-- The path leads through something that is no directory. -/
  | notDirectory
  /-- The path leads to a directory. -/
  | isDirectory
  /-- The file is not text. -/
  | notText
deriving DecidableEq

/-- The wording of the fault. -/
def ReadFault.message : ReadFault → String
  | missing => "No such file or directory (os error 2)"
  | notDirectory => "Not a directory (os error 20)"
  | isDirectory => "Is a directory (os error 21)"
  | notText => "stream did not contain valid UTF-8"

/-- The text with this UTF-8 encoding. -/
def decodeText? (bytes : List UInt8) : Option String := String.fromUTF8? ⟨bytes.toArray⟩

/-- What a name stands for. -/
inductive Entry where
  | file (content : List UInt8)
  | directory
deriving DecidableEq

/-- A working directory: the entries in it and below it, by the names that lead to
them. Directories on the way to an entry need not be listed, and of entries with the
same names the last one counts. -/
structure Directory where
  entries : List (List String × Entry)

/-- A place that part of a path has led to. -/
inductive Place where
  /-- Below the working directory, or that directory itself. -/
  | inside (names : List String)
  /-- A directory that is not known. -/
  | elsewhere
deriving DecidableEq

/-- One more component of a path, from a place that is a directory. Nothing is known
by name elsewhere. -/
def Place.enter? (component : String) : Place → Option Place
  | inside names =>
    if component = "" ∨ component = "." then some (inside names)
    else if component = ".." then
      if names.isEmpty then some elsewhere else some (inside names.dropLast)
    else some (inside (names ++ [component]))
  | elsewhere =>
    if component = "" ∨ component = "." ∨ component = ".." then some elsewhere else none

namespace Directory

/-- What these names lead to from the working directory. -/
def entry? (d : Directory) (names : List String) : Option Entry :=
  if names.isEmpty then
    some .directory
  else
    match d.entries.findRev? fun e => e.1 == names with
    | some e => some e.2
    | none => if d.entries.any fun e => names.isPrefixOf e.1 then some .directory else none

/-- What is at a place. -/
def at? (d : Directory) : Place → Option Entry
  | .inside names => d.entry? names
  | .elsewhere => some .directory

/-- Follows the components of a path. All places on the way have to be directories. -/
def follow (d : Directory) (place : Place) : List String → Except ReadFault Entry
  | [] =>
    match d.at? place with
    | some entry => .ok entry
    | none => .error .missing
  | component :: rest =>
    match d.at? place with
    | some .directory =>
      match place.enter? component with
      | some next => d.follow next rest
      | none => .error .missing
    | some (.file _) => .error .notDirectory
    | none => .error .missing

/-- What a path leads to. A path that begins with a slash does not begin in the
working directory. -/
def find (d : Directory) (path : String) : Except ReadFault Entry :=
  match path.splitOn "/" with
  | "" :: component :: rest => d.follow .elsewhere (component :: rest)
  | components => d.follow (.inside []) components

/-- The text of the file that a path leads to. -/
def read (d : Directory) (path : String) : Except ReadFault String :=
  match d.find path with
  | .error fault => .error fault
  | .ok .directory => .error .isDirectory
  | .ok (.file content) =>
    match decodeText? content with
    | some text => .ok text
    | none => .error .notText

end Directory

end LoxCalc
