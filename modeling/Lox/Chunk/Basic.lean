import Lox.Instr
import Lox.Value

/-!
# Chunks

A chunk is the unit of code: its bytes, the source line of each byte, and the constants that the
code refers to by index. Bytes and lines are written together, so a chunk that was only written
to has as many of the one as of the other; a chunk read from elsewhere has to be verified.
-/

namespace Lox

/-- A unit of code. -/
structure Chunk where
  /-- The code. -/
  code : Bytes := []
  /-- The source line of each byte of code. -/
  lines : List Int := []
  /-- The constants. -/
  consts : List Value := []
  /-- Whether an empty code is saved as an empty section rather than as no section. -/
  keepsCode : Bool := false
  /-- Whether an empty line map is saved as an empty section rather than as no section. -/
  keepsLines : Bool := false
  deriving DecidableEq

namespace Chunk

/-- The chunk with nothing in it. -/
def empty : Chunk := {}

/-- The number of bytes of code. -/
def size (c : Chunk) : Nat :=
  c.code.length

/-- Adds bytes of code, all from one source line. -/
def write (c : Chunk) (bytes : Bytes) (line : Int) : Chunk :=
  { c with code := c.code ++ bytes, lines := c.lines ++ List.replicate bytes.length line }

/-- Adds a constant. Constants are numbered in the order they are added. -/
def addConst (c : Chunk) (v : Value) : Chunk :=
  { c with consts := c.consts ++ [v] }

/-- The element of a list at a position that may lie anywhere. -/
def at? {α : Type} (xs : List α) (i : Int) : Option α :=
  if i < 0 then none else xs[i.toNat]?

/-- The byte of code at an offset. -/
def byteAt? (c : Chunk) (offset : Int) : Option UInt8 :=
  at? c.code offset

/-- The source line of the byte at an offset. -/
def lineAt? (c : Chunk) (offset : Int) : Option Int :=
  at? c.lines offset

/-- The constant with an index. -/
def constAt? (c : Chunk) (index : Int) : Option Value :=
  at? c.consts index

/-- The line of the last byte, or zero when there is none. -/
def lastLine (c : Chunk) : Int :=
  c.lines.getLast?.getD 0

@[simp] theorem size_empty : empty.size = 0 := rfl

/-- A chunk grows by the bytes that are written to it. -/
@[simp] theorem size_write (c : Chunk) (bytes : Bytes) (line : Int) :
    (c.write bytes line).size = c.size + bytes.length := by
  simp [size, write]

/-- Writing keeps bytes and lines in step. -/
theorem length_lines_write {c : Chunk} (h : c.lines.length = c.code.length) (bytes : Bytes)
    (line : Int) :
    (c.write bytes line).lines.length = (c.write bytes line).code.length := by
  simp [write, h]

end Chunk

end Lox
