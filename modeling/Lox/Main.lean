import Lox.Cli.Run

/-!
# The program

The outer layer: it reads the files that the command may look at, runs the command on them as
values, and carries out what the outcome says. The loop reads its input line by line.
-/

namespace Lox.Main

/-- The reason that an error of the file system gives. -/
def reasonOf : IO.Error → String
  | .noFileOrDirectory _ _ details | .inappropriateType _ _ details
  | .permissionDenied _ _ details | .invalidArgument _ _ details => details.decapitalize
  | e => toString e

/-- What stands at a path of the file system. Only what is not there is absent; whatever else cannot
be read is a folder or is barred. -/
def lookAt (path : String) : IO (Option Directory.Entry) := do
  try
    let content ← IO.FS.readBinFile path
    return some (.file content.toList)
  catch
    | .noFileOrDirectory .. => return none
    | e =>
      let reason := reasonOf e
      if reason = Directory.Fault.text .isFolder then return some .folder
      return some (.barred reason)

/-- What stands on the way to a path. A folder that cannot be listed may still be passed through,
and a path that cannot be followed to its end is barred itself. -/
def lookAround (path : String) : IO (Option Directory.Entry) := do
  return (← lookAt path).map fun
    | .barred _ => .folder
    | e => e

/-- A path with some components. -/
def spell (parts : List String) : String :=
  "/".intercalate parts

/-- The part of the file system that some paths lead to, and the folders it stands in. Each path is
entered as it is spelled, so the file system itself follows two points and links. -/
def survey (paths : List String) : IO Directory := do
  let places := paths.map Directory.components
  let found ← places.filterMapM fun parts => do
    return (← lookAt (spell parts)).map (parts, ·)
  let around ← (places.map List.dropLast).filterMapM fun parts => do
    return (← lookAround (spell parts)).map (parts, ·)
  return ⟨found ++ around⟩

/-- Writes log entries. -/
def writeLog (entries : List Log.Entry) : IO Unit := do
  let stderr ← IO.getStderr
  for e in entries do
    stderr.putStr e.text

/-- Writes output. -/
def writeOutput (bytes : Bytes) : IO Unit := do
  let stdout ← IO.getStdout
  stdout.write (ByteArray.mk bytes.toArray)
  stdout.flush

/-- Carries out the changes of the outcome to files. The result is what stands where the file system
refuses one. -/
def writeFiles (before after : Directory) : IO (List (List String × Directory.Entry)) :=
  after.entries.filterMapM fun (parts, e) => do
    match e with
    | .file content =>
      if before.kind? parts = some e then return none
      try
        IO.FS.writeBinFile (spell parts) (ByteArray.mk content.toArray)
        return none
      catch fault => return some (parts, .barred (reasonOf fault))
    | _ => return none

/-- Makes the outcome visible. -/
def report (outcome : Cli.Outcome) : IO UInt32 := do
  writeOutput outcome.output
  writeLog outcome.log
  return UInt32.ofNat outcome.status

/-- Reads lines and answers them, until the input ends. -/
partial def loop (s : Settings) (verbosity : Log.Level) (state : Repl.State) : IO Unit := do
  let stdin ← IO.getStdin
  if ← stdin.isTty then
    writeOutput (Utf8.ofString s.prompt)
  let line ← stdin.getLine
  unless line.isEmpty do
    let state := (Repl.lines (Utf8.ofString line)).foldl Repl.step state
    writeLog (Log.shown verbosity state.log)
    writeOutput state.engine.console.output
    loop s verbosity ⟨{ state.engine with console := state.engine.console.cleared }, []⟩

end Lox.Main

/-- The program. If a file is refused when it is to be written, the command is run once more, on a
directory that says so. -/
def main (arguments : List String) : IO UInt32 := do
  let before ← Lox.Main.survey (Lox.Cli.paths arguments)
  match Lox.Cli.plan arguments before with
  | .loop s verbosity =>
    Lox.Main.loop s verbosity (Lox.Repl.start (Lox.Cli.machineOptions s))
    return 0
  | .finished outcome =>
    let refused ← Lox.Main.writeFiles before outcome.directory
    if refused.isEmpty then Lox.Main.report outcome
    else Lox.Main.report (Lox.Cli.run arguments ⟨refused ++ before.entries⟩ [])
