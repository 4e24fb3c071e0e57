import Lox.Compile
import Lox.Engine
import Lox.Failure

/-!
# Interpreting a source text

To interpret a source text is to compile it and, if it has no errors, to run the chunk. A source
with errors leaves the engine as it was.
-/

namespace Lox

/-- What interpreting a source text, or running a chunk, comes to. -/
structure Interpretation (κ : Type := Console) where
  /-- The value, or why there is none. -/
  result : Except Failure Value
  /-- The sink afterwards. -/
  console : κ
  /-- The log, in order. -/
  log : List Log.Entry

/-- What an engine can be asked. -/
inductive Call where
  /-- To run a chunk, if there is one. -/
  | run (c? : Option Chunk)
  /-- To interpret a source text. -/
  | interpret (source : Bytes)

namespace Engine

variable {κ : Type}

/-- What a run came to, after some entries in the log, and the engine as it was left. -/
def Ended.answer (log : List Log.Entry) (r : Ended κ) : Interpretation κ × Engine κ :=
  (⟨r.result.mapError Failure.ofStop, r.engine.console, log ++ r.log.reverse⟩, r.engine)

/-- Answers a call. -/
def call [Sink κ] (e : Engine κ) : Call → Interpretation κ × Engine κ
  | .run c? => (e.run c?).answer []
  | .interpret source =>
    let compilation := Compilation.ofSource source
    let log := [compilation.listingEntry]
    match compilation.result with
    | .error ds => (⟨.error (.ofDiagnostics ds), e.console, log⟩, e)
    | .ok c => (e.run (some c)).answer log

end Engine

namespace Interpretation

variable {κ : Type}

/-- What a call comes to on an engine that has not run anything yet. -/
def ofCall [Sink κ] (o : Machine.Options) (k : κ) (call : Call) : Interpretation κ :=
  ((Engine.new o k).call call).1

end Interpretation

end Lox
