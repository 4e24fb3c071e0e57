import Lox.Diagnostic
import Lox.Machine.Run

/-!
# Failures

A failure is what the program reports when it gives up: a single cause, a cause with some context
around it, or several causes together. Its exit status is decided by the gravest cause in it,
wherever that stands: the source text, then the run, then the settings, then a file.
-/

namespace Lox

/-- What a failure is about, as far as the exit status goes. -/
inductive Failure.Cause where
  | source | run | settings | file | other
  deriving DecidableEq, Repr

/-- A reason to give up. -/
inductive Failure where
  /-- Something is wrong with the source text. -/
  | compilation (line : Int) (reason : String)
  /-- A run went wrong. -/
  | runtime (line fault : Int) (reason : String)
  /-- The settings are bad; `origin` is the file they come from, if any. -/
  | settings (origin reason : String)
  /-- A file could not be used. -/
  | file (text : String)
  /-- Anything else. -/
  | other (text : String)
  /-- A failure with some context around it. -/
  | context (text : String) (inner : Failure)
  /-- Several failures. -/
  | several (members : List Failure)

namespace Failure

/-- The text of several failures, given the texts of the members. -/
def listText (texts : List String) : String :=
  let head := if texts.length = 1 then "1 error occurred:" else s!"{texts.length} errors occurred:"
  head ++ "\n\t* " ++ "\n\t* ".intercalate texts ++ "\n\n"

/-- The text of a failure of the settings. -/
def settingsText (origin reason : String) : String :=
  if origin.isEmpty then "config error: " ++ reason
  else "config error [" ++ origin ++ "]: " ++ reason

mutual

/-- The text of a failure. -/
def text : Failure → String
  | compilation line reason => s!"compilation error [L{line}]: {reason}"
  | runtime line fault reason => runtimeMessage line fault reason
  | settings origin reason => settingsText origin reason
  | file text => text
  | other text => text
  | context about inner => about ++ ": " ++ inner.text
  | several members => listText (texts members)

/-- The texts of some failures. -/
def texts : List Failure → List String
  | [] => []
  | f :: fs => f.text :: texts fs

end

mutual

/-- The causes in a failure, in order. -/
def causes : Failure → List Cause
  | compilation .. => [.source]
  | runtime .. => [.run]
  | settings .. => [.settings]
  | file _ => [.file]
  | other _ => [.other]
  | context _ inner => inner.causes
  | several members => causesOfAll members

/-- The causes in some failures, in order. -/
def causesOfAll : List Failure → List Cause
  | [] => []
  | f :: fs => f.causes ++ causesOfAll fs

end

/-- The exit status of success. -/
def success : Nat := 0

/-- The exit status for bad usage, which is also that of any failure without another one. -/
def usageStatus : Nat := 64

/-- The causes with a status of their own, gravest first. -/
def statuses : List (Cause × Nat) :=
  [(.source, 65), (.run, 70), (.settings, usageStatus), (.file, 74)]

/-- The exit status of a failure. -/
def exitStatus (f : Failure) : Nat :=
  match statuses.find? fun entry => f.causes.contains entry.1 with
  | some entry => entry.2
  | none => usageStatus

/-- The members of a failure, when it is put together with others. -/
def members : Failure → List Failure
  | several fs => fs
  | f => [f]

/-- Failures put together: those that are several already are not nested. If there is nothing in
them, they are no failure. -/
def join? (fs : List Failure) : Option Failure :=
  let all := fs.flatMap members
  if all.isEmpty then none else some (.several all)

/-- The failure of a source text with errors. -/
def ofDiagnostics (ds : List Diagnostic) : Failure :=
  .several (ds.map fun d => .compilation d.line d.text)

/-- The failure of a run that stopped. -/
def ofStop : Machine.Stop → Failure
  | .fault e => .runtime e.line e.trap.fault.number e.trap.reason
  | .refused reason => .other reason

end Failure

end Lox
