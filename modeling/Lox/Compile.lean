import Lox.Chunk.Listing
import Lox.Log
import Lox.Program.Read

/-!
# Compiling a program

The code of a program is the code of its statements one after another, each with what becomes of
its value, and then the return of the result: the value that the last statement left, or `nil`.
A program with errors is rejected; the code made from it is still there to be listed.
-/

namespace Lox

/-- The instruction that carries out a use, and then `after`. -/
def Use.codeThen (use : Use) (after : Code) : Code :=
  match use with
  | .print line => after.prepend line [⟨.print, 0⟩]
  | .drop line => after.prepend line [⟨.pop, 0⟩]
  | .result | .nothing => after

namespace Program

/-- Whether the last statement leaves the result on the stack. -/
def hasResult (p : Program) : Bool :=
  (p.actions.getLast?.map Action.use) == some .result

/-- The instructions that end a program. -/
def ending (p : Program) : Code :=
  Code.prepend p.endLine (if p.hasResult then [⟨.ret, 0⟩] else [⟨.pushNil, 0⟩, ⟨.ret, 0⟩]) {}

/-- The code of a program. -/
def code (p : Program) : Code :=
  p.actions.foldr (fun a after => a.expr.codeThen p.pool (a.use.codeThen after)) p.ending

end Program

namespace Chunk

/-- The chunk of some code and constants. -/
def ofCode (k : Code) (pool : Pool) : Chunk where
  code := k.placed.flatMap fun p => p.instr.encode
  lines := k.placed.flatMap fun p => List.replicate p.instr.size p.line
  consts := pool

end Chunk

/-- What compiling a source text comes to. -/
structure Compilation where
  /-- The code that was made, whether or not there are errors. -/
  chunk : Chunk
  /-- What is wrong with the source. -/
  errors : List Diagnostic

namespace Compilation

/-- Compiles a program that was read. -/
def ofProgram (p : Program) : Compilation :=
  ⟨.ofCode p.code p.pool, p.errors⟩

/-- Compiles a source text. -/
def ofSource (source : Bytes) : Compilation :=
  ofProgram (Program.ofSource (Utf8.decode source))

/-- The chunk, if the source has no errors. -/
def result (c : Compilation) : Except (List Diagnostic) Chunk :=
  if c.errors.isEmpty then .ok c.chunk else .error c.errors

/-- The log entry that lists the code made. -/
def listingEntry (c : Compilation) : Log.Entry :=
  ⟨.debug, c.chunk.listing "endCompiler"⟩

end Compilation

/-- Compiles a source text to a chunk, or says what is wrong with it. -/
def compile (source : Bytes) : Except (List Diagnostic) Chunk :=
  (Compilation.ofSource source).result

end Lox
