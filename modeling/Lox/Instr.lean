import Lox.Text.Utf8

/-!
# Instructions and their bytes

An instruction is an opcode and an operand. It is written as one byte for the opcode and as many
bytes for the operand as the opcode's width says, most significant first. `fetch` reads one
instruction back from the bytes at some point. It is the only reader of instructions: the
verifier, the listing and the machine all go through it, so they cannot disagree on where an
instruction ends.
-/

namespace Lox

/-- The operations of the machine. -/
inductive Opcode where
  | ret | const | pushNil | pushTrue | pushFalse | pop | equal | greater | less | not | negate
  | add | sub | mul | div | print | jump | jumpIfFalse
  deriving DecidableEq, Repr

namespace Opcode

/-- All opcodes, in the order of their bytes. -/
def all : List Opcode :=
  [ret, const, pushNil, pushTrue, pushFalse, pop, equal, greater, less, not, negate, add, sub, mul,
   div, print, jump, jumpIfFalse]

/-- The byte of an opcode. -/
def byte : Opcode → UInt8
  | ret => 0
  | const => 1
  | pushNil => 2
  | pushTrue => 3
  | pushFalse => 4
  | pop => 5
  | equal => 6
  | greater => 7
  | less => 8
  | not => 9
  | negate => 10
  | add => 11
  | sub => 12
  | mul => 13
  | div => 14
  | print => 15
  | jump => 16
  | jumpIfFalse => 17

/-- The opcode of a byte. -/
def ofByte? (b : UInt8) : Option Opcode :=
  all[b.toNat]?

/-- The name of an opcode. -/
def name : Opcode → String
  | ret => "OpReturn"
  | const => "OpConst"
  | pushNil => "OpNil"
  | pushTrue => "OpTrue"
  | pushFalse => "OpFalse"
  | pop => "OpPop"
  | equal => "OpEqual"
  | greater => "OpGreater"
  | less => "OpLess"
  | not => "OpNot"
  | negate => "OpNeg"
  | add => "OpAdd"
  | sub => "OpSub"
  | mul => "OpMul"
  | div => "OpDiv"
  | print => "OpPrint"
  | jump => "OpJump"
  | jumpIfFalse => "OpJumpIfFalse"

/-- The number of operand bytes. -/
def width : Opcode → Nat
  | const => 1
  | jump | jumpIfFalse => 2
  | _ => 0

/-- The name of a byte in the place of an opcode, whether it is one or not. -/
def nameOfByte (b : UInt8) : String :=
  match ofByte? b with
  | some op => op.name
  | none => s!"OpCode({b.toNat})"

/-- The number of operand bytes after a byte in the place of an opcode. -/
def widthOfByte (b : UInt8) : Nat :=
  match ofByte? b with
  | some op => op.width
  | none => 0

/-- The byte of an opcode is read back as the opcode. -/
@[simp] theorem ofByte?_byte (op : Opcode) : ofByte? op.byte = some op := by
  cases op <;> rfl

end Opcode

/-- An instruction: an opcode and its operand, zero where the opcode takes none. -/
structure Instr where
  op : Opcode
  operand : Nat := 0
  deriving DecidableEq, Repr

namespace Instr

/-- The `n` low bytes of a number, most significant first. -/
def operandBytes : Nat → Nat → Bytes
  | 0, _ => []
  | n + 1, k => UInt8.ofNat (k / Nat.pow 256 n) :: operandBytes n k

/-- Reads `n` bytes, most significant first, after a number already read. -/
def readOperand? : Nat → Nat → Bytes → Option Nat
  | 0, k, _ => some k
  | _ + 1, _, [] => none
  | n + 1, k, b :: rest => readOperand? n (k * 256 + b.toNat) rest

/-- The bytes of an instruction. -/
def encode (i : Instr) : Bytes :=
  i.op.byte :: operandBytes i.op.width i.operand

/-- The number of bytes of an instruction. -/
def size (i : Instr) : Nat :=
  i.op.width + 1

/-- An operand takes as many bytes as its width says, whatever its value. -/
@[simp] theorem length_operandBytes (n k : Nat) : (operandBytes n k).length = n := by
  induction n with
  | zero => rfl
  | succ n ih => simp [operandBytes, ih]

/-- The spelling of an instruction is as long as its size says. -/
@[simp] theorem length_encode (i : Instr) : i.encode.length = i.size := by
  simp [encode, size]

end Instr

/-- What stands at some point of the code. -/
inductive Fetched where
  /-- A whole instruction. -/
  | whole (i : Instr)
  /-- An opcode whose operand runs past the end of the code. -/
  | truncated (op : Opcode)
  /-- A byte that is no opcode. -/
  | unknown (b : UInt8)
  deriving DecidableEq, Repr

/-- Reads the instruction that begins with the byte `b` and goes on in `rest`. -/
def fetch (b : UInt8) (rest : Bytes) : Fetched :=
  match Opcode.ofByte? b with
  | none => .unknown b
  | some op =>
    match Instr.readOperand? op.width 0 rest with
    | none => .truncated op
    | some k => .whole ⟨op, k⟩

end Lox
