import Lox.Compile

/-!
# A compiler that is used again

A compiler works on one source after another. Its storage holds the tokens still to be read and how
far reading has come: the statements, the constants with their places, the errors, and whether
complaints are held back. Reading goes on from whatever is there, so a new source begins with fresh
storage. What the last source left stays until then, for whoever asks whether it had errors.
-/

namespace Lox

/-- A compiler, as its last source left it. -/
structure Compiler where
  /-- What is still to be read. -/
  feed : Feed := ⟨[], [], .atEnd 0⟩
  /-- How far reading has come. -/
  progress : Program.Progress := {}

namespace Compiler

/-- The compiler at the beginning of a source text. -/
def load (_ : Compiler) (source : Bytes) : Compiler where
  feed := .ofScanned (Token.scan (Utf8.decode source))

/-- The compiler after reading all that is left. -/
def readAll (k : Compiler) : Compiler where
  feed := { k.feed with leading := [], cells := [] }
  progress :=
    let begun := k.progress.complain (k.feed.leading.head?.map (⟨.stray, ·⟩))
    Program.readFrom k.feed.finish begun k.feed.cells

/-- The program that has been read. -/
def program (k : Compiler) : Program :=
  ⟨k.progress.actions.reverse, k.progress.pool, k.progress.errors.reverse, k.feed.finish.line⟩

/-- Compiles a source text. -/
def compile (k : Compiler) (source : Bytes) : Compilation × Compiler :=
  let k := (k.load source).readAll
  (.ofProgram k.program, k)

/-- Whether the last source had errors. -/
def hadError (k : Compiler) : Bool :=
  !k.progress.errors.isEmpty

end Compiler

end Lox
