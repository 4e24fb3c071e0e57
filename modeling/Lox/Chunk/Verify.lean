import Lox.Chunk.Basic

/-!
# Verifying a chunk

A chunk is sound when every byte of code has a line and the code, read from its start, is a
sequence of whole instructions whose constants exist and whose jumps do not leave the code. The
end of the code is a place one may jump to. `defect?` finds the first thing that is wrong.
-/

namespace Lox.Chunk

/-- What can be wrong with a chunk. -/
inductive Defect where
  /-- The line map does not match the code. -/
  | lineMap (lines code : Nat)
  /-- A byte that is no opcode stands where an instruction should begin. -/
  | unknown (offset : Nat) (b : UInt8)
  /-- An operand runs past the end of the code. -/
  | truncated (offset : Nat) (op : Opcode)
  /-- There is no constant with the index that an instruction names. -/
  | constant (offset index count : Nat)
  /-- A jump leads past the end of the code. -/
  | target (offset landing : Nat)
  deriving DecidableEq, Repr

/-- The wording of a defect. -/
def Defect.message : Defect → String
  | lineMap lines code => s!"line map has {lines} entries for {code} code bytes"
  | unknown offset b => s!"offset {offset}: unknown instruction '{b.toNat}'"
  | truncated offset op => s!"offset {offset}: {op.name} operand truncated"
  | constant offset index count =>
    s!"offset {offset}: constant index {index} out of range [0, {count})"
  | target offset landing => s!"offset {offset}: jump target {landing} past end of code"

/-- What is wrong with a whole instruction at an offset, in a chunk with so many constants and
bytes of code. -/
def instrDefect? (count size offset : Nat) (i : Instr) : Option Defect :=
  match i.op with
  | .const => if count ≤ i.operand then some (.constant offset i.operand count) else none
  | .jump | .jumpIfFalse =>
    let landing := offset + i.size + i.operand
    if size < landing then some (.target offset landing) else none
  | _ => none

/-- The first defect of the code, `skip` bytes further on; `offset` is where the given bytes
begin in the code. -/
def codeDefect? (count size : Nat) : Nat → Nat → Bytes → Option Defect
  | _, _, [] => none
  | skip + 1, offset, _ :: rest => codeDefect? count size skip (offset + 1) rest
  | 0, offset, b :: rest =>
    match fetch b rest with
    | .unknown b => some (.unknown offset b)
    | .truncated op => some (.truncated offset op)
    | .whole i =>
      match instrDefect? count size offset i with
      | some d => some d
      | none => codeDefect? count size i.op.width (offset + 1) rest

/-- The first thing that is wrong with a chunk. -/
def defect? (c : Chunk) : Option Defect :=
  if c.code.length ≠ c.lines.length then some (.lineMap c.lines.length c.code.length)
  else codeDefect? c.consts.length c.size 0 0 c.code

end Lox.Chunk
