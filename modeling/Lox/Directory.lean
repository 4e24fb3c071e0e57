import Lox.Text.Utf8

/-!
# Directories

A directory as a value: files with their contents, folders, and things that cannot be opened.
Reading and writing are functions on it, which fail as the operations of a file system do.

A path is taken as it is spelled. Two points are a component like any other, which leads to an entry
of that spelling and not to the folder around: who lists the entries enters each path under the
components it is asked for by.
-/

namespace Lox

/-- What stands at a path. -/
inductive Directory.Entry where
  | file (content : Bytes)
  | folder
  /-- Something that cannot be opened, and why. -/
  | barred (reason : String)
  deriving DecidableEq, Repr

/-- A directory: what stands at the paths below it, each given by its components. -/
structure Directory where
  entries : List (List String × Directory.Entry) := []
  deriving DecidableEq, Repr

namespace Directory

/-- Why a path cannot be read or written. -/
inductive Fault where
  | missing
  | isFolder
  | notFolder
  | barred (reason : String)
  deriving DecidableEq, Repr

/-- The wording of a fault. -/
def Fault.text : Fault → String
  | missing => "no such file or directory"
  | isFolder => "is a directory"
  | notFolder => "not a directory"
  | barred reason => reason

/-- The text of a failure to read a path. A folder can be opened, but not read. -/
def readText (path : String) (f : Fault) : String :=
  (if f = .isFolder then "read " else "open ") ++ path ++ ": " ++ f.text

/-- The text of a failure to write to a path. -/
def writeText (path : String) (f : Fault) : String :=
  "open " ++ path ++ ": " ++ f.text

/-- The stretches of a path between slashes; `seen` is the stretch so far, last character first. -/
def stretches (seen : List Char) : List Char → List String
  | [] => [String.ofList seen.reverse]
  | c :: cs =>
    if c = '/' then String.ofList seen.reverse :: stretches [] cs else stretches (c :: seen) cs

/-- The components of a path. Empty ones and single points lead nowhere else; a slash in front
leads to the root, which is a component of its own. Two points stay a component. -/
def components (path : String) : List String :=
  let parts := (stretches [] path.toList).filter fun c => !c.isEmpty && c ≠ "."
  if path.toList.head? = some '/' then "/" :: parts else parts

/-- Whether a path ends in a single point, slashes aside. -/
def endsInPoint (path : String) : Bool :=
  ((stretches [] path.toList).filter fun c => !c.isEmpty).getLast? = some "."

/-- Whether a path asks for a folder, by a slash or a single point at its end. -/
def asksFolder (path : String) : Bool :=
  path.toList.getLast? = some '/' || endsInPoint path

/-- What stands at a path. A folder is there if anything stands below it. -/
def kind? (d : Directory) (parts : List String) : Option Entry :=
  if parts.isEmpty then some .folder
  else
    match d.entries.lookup parts with
    | some e => some e
    | none => if d.entries.any fun e => parts.isPrefixOf e.1 then some .folder else none

/-- Whether a path leads through something that is no folder. -/
def throughFile (d : Directory) (parts : List String) : Bool :=
  d.entries.any fun e => e.2 ≠ .folder && e.1 ≠ parts && e.1.isPrefixOf parts

/-- The content of the file at a path. -/
def read (d : Directory) (path : String) : Except Fault Bytes :=
  let parts := components path
  if path.isEmpty then .error .missing
  else if d.throughFile parts then .error .notFolder
  else
    match d.kind? parts with
    | none => .error .missing
    | some .folder => .error .isFolder
    | some (.barred reason) => .error (.barred reason)
    | some (.file content) => if asksFolder path then .error .notFolder else .ok content

/-- The directory with a file in it, in place of what stood at its path. -/
def put (d : Directory) (parts : List String) (content : Bytes) : Directory :=
  ⟨(parts, .file content) :: d.entries.filter (·.1 ≠ parts)⟩

/-- Why nothing is written at a path that asks for a folder. A single point at the end is looked for
in what stands before it, which has the fault `f`; after a slash alone nothing is looked for. -/
def refusal (path : String) (f : Fault) : Fault :=
  if endsInPoint path then f else .isFolder

/-- The directory after a file was written. -/
def write (d : Directory) (path : String) (content : Bytes) : Except Fault Directory :=
  let parts := components path
  if path.isEmpty then .error .missing
  else if d.throughFile parts then .error .notFolder
  else
    match d.kind? parts, d.kind? parts.dropLast with
    | some .folder, _ => .error .isFolder
    | some (.barred reason), _ => .error (.barred reason)
    | some (.file _), _ =>
      if asksFolder path then .error (refusal path .notFolder) else .ok (d.put parts content)
    | none, some .folder =>
      if asksFolder path then .error (refusal path .missing) else .ok (d.put parts content)
    | none, _ => .error .missing

end Directory

end Lox
