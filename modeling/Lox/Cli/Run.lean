import Lox.Cli.Flags
import Lox.Image.Chunk
import Lox.Repl

/-!
# The command

With a file, the command compiles it, or loads it if it is an image, and then runs it or writes
its image. Without one it is a read-eval-print loop. Everything it does to the world is in its
outcome: the exit status, the output, the log, and the directory afterwards.
-/

namespace Lox.Cli

/-- What running the command comes to. -/
structure Outcome where
  status : Nat
  output : Bytes := []
  /-- The log entries that are shown. -/
  log : List Log.Entry := []
  directory : Directory
  deriving DecidableEq, Repr

/-- The verbosity before the settings are known. -/
def initialVerbosity : Log.Level := .info

/-- The choices for a run under some settings. -/
def machineOptions (s : Settings) : Machine.Options where
  limit := s.stackMax
  strictDivision := s.strictDivision
  trace := s.trace

/-- The work on one file, so far. -/
structure Work where
  failure : Option Failure := none
  output : Bytes := []
  log : List Log.Entry := []
  directory : Directory

namespace Work

/-- The work, ended by a failure. -/
def fail (w : Work) (f : Failure) : Work :=
  { w with failure := some f }

/-- The work after some log entries. -/
def logged (w : Work) (entries : List Log.Entry) : Work :=
  { w with log := w.log ++ entries }

/-- The work after some output. -/
def printed (w : Work) (bytes : Bytes) : Work :=
  { w with output := w.output ++ bytes }

/-- Writes the image of a chunk. -/
def writeImage (w : Work) (c : Chunk) (path : String) : Work :=
  let image := c.save
  match w.directory.write path image with
  | .error fault => w.fail (.file (Directory.writeText path fault))
  | .ok directory =>
    { w with directory := directory }.logged [⟨.info, s!"wrote {image.length} bytes to {path}"⟩]

/-- Runs a chunk. -/
def runChunk (w : Work) (o : Machine.Options) (c : Chunk) : Work :=
  let r := Interpretation.ofCall o ({} : Console) (.run (some c))
  let w := (w.printed r.console.output).logged r.log
  match r.result with
  | .error f => w.fail f
  | .ok _ => w

/-- Goes on with the chunk of a file. -/
def withChunk (w : Work) (fs : Flags) (s : Settings) (path : String) (c : Chunk) : Work :=
  let w := if fs.disassemble then w.printed (Utf8.ofString (c.listing path)) else w
  if fs.emit.isEmpty then w.runChunk (machineOptions s) c else w.writeImage c fs.emit

/-- Does the work on the file at a path. -/
def onFile (w : Work) (fs : Flags) (s : Settings) (path : String) : Work :=
  match w.directory.read path with
  | .error fault => w.fail (.file (Directory.readText path fault))
  | .ok content =>
    if fs.image then
      match Chunk.load content with
      | .error e => w.fail (.other e.message)
      | .ok c => w.withChunk fs s path c
    else
      let compilation := Compilation.ofSource content
      let w := w.logged [compilation.listingEntry]
      match compilation.result with
      | .error ds => w.fail (.ofDiagnostics ds)
      | .ok c => w.withChunk fs s path c

/-- The outcome of some work, with a log of a given verbosity. A failure is logged last. -/
def outcome (w : Work) (verbosity : Log.Level) : Outcome :=
  let w := match w.failure with
    | some f => w.logged [⟨.error, f.text⟩]
    | none => w
  { status := match w.failure with
      | some f => f.exitStatus
      | none => Failure.success
    output := w.output
    log := Log.shown verbosity w.log
    directory := w.directory }

end Work

/-- What is to be done. -/
inductive Plan where
  /-- Nothing more: the outcome is known. -/
  | finished (o : Outcome)
  /-- The read-eval-print loop, under some settings. -/
  | loop (s : Settings) (verbosity : Log.Level)

/-- The log level of settings that were checked. -/
def verbosityOf (s : Settings) : Log.Level :=
  (Log.Level.ofName? s.verbosity).getD initialVerbosity

/-- The failure to give a file where one is needed. -/
def fileNeeded : Failure :=
  .settings "" "--image and --emit need a FILE"

/-- Does what the flags ask for with the files, or finds that the loop is to be run. -/
def dispatch (fs : Flags) (files : List String) (d : Directory) : Plan :=
  match fs.settings d with
  | .error e => .finished (({ directory := d : Work }.fail e.failure).outcome initialVerbosity)
  | .ok s =>
    let verbosity := verbosityOf s
    match files with
    | path :: _ => .finished (({ directory := d : Work }.onFile fs s path).outcome verbosity)
    | [] =>
      if fs.image || !fs.emit.isEmpty then
        .finished (({ directory := d : Work }.fail fileNeeded).outcome verbosity)
      else .loop s verbosity

/-- The outcome of a command line that is rejected. -/
def rejected (e : UsageError) (d : Directory) : Outcome where
  status := Failure.usageStatus
  log := Log.shown initialVerbosity [⟨.error, e.message⟩]
  directory := d

/-- What the arguments ask for. -/
def plan (arguments : List String) (d : Directory) : Plan :=
  match Flags.parse arguments with
  | .error e => .finished (rejected e d)
  | .ok (fs, files) =>
    if fs.help then
      .finished { status := Failure.success, output := Utf8.ofString helpText, directory := d }
    else if 1 < files.length then .finished (rejected (.tooManyFiles files.length) d)
    else dispatch fs files d

/-- The command: arguments, the directory it is run in, and its input. -/
def run (arguments : List String) (d : Directory) (input : Bytes) : Outcome :=
  match plan arguments d with
  | .finished o => o
  | .loop s verbosity =>
    let r := Repl.run (machineOptions s) input
    { status := Failure.success
      output := r.engine.console.output
      log := Log.shown verbosity r.log
      directory := d }

/-- The paths that the command may look at: those of the settings, of the file, and of the image
to be written. -/
def paths (arguments : List String) : List String :=
  match Flags.parse arguments with
  | .error _ => []
  | .ok (fs, files) =>
    [Settings.placeOf fs.config] ++ files ++
      if fs.emit.isEmpty then [] else [fs.emit]

end Lox.Cli
