import Lox.Instr
import Lox.Value

/-!
# Faults

A run that goes wrong stops with a trap. A trap says precisely what happened; its fault is the
class it is counted in, and its reason is the wording for a person.
-/

namespace Lox

/-- The classes of run-time error. -/
inductive Fault where
  | typeMismatch | stackUnderflow | stackOverflow | divisionByZero | badInstruction
  deriving DecidableEq, Repr

namespace Fault

/-- The faults in the order of their numbers. -/
def all : List Fault :=
  [typeMismatch, stackUnderflow, stackOverflow, divisionByZero, badInstruction]

/-- The number of a fault. -/
def number : Fault → Nat
  | typeMismatch => 0
  | stackUnderflow => 1
  | stackOverflow => 2
  | divisionByZero => 3
  | badInstruction => 4

/-- The name of a fault. -/
def name : Fault → String
  | typeMismatch => "type mismatch"
  | stackUnderflow => "stack underflow"
  | stackOverflow => "stack overflow"
  | divisionByZero => "division by zero"
  | badInstruction => "bad instruction"

/-- The name of the fault with a given number, whether there is one or not. -/
def nameAt (n : Int) : String :=
  match if n < 0 then none else all[n.toNat]? with
  | some f => f.name
  | none => s!"Fault({n})"

end Fault

/-- What can go wrong in a run. -/
inductive Trap where
  /-- A push beyond the limit of the stack. -/
  | overflow (limit : Int)
  /-- Too few operands on the stack. -/
  | underflow (op : Opcode) (needed height : Nat)
  /-- The operand of a negation is no number. -/
  | notNumber (v : Value)
  /-- The operands of arithmetic or of a comparison are not both numbers. -/
  | notNumbers (left right : Value)
  /-- The operands of a sum are neither two numbers nor two strings. -/
  | notAddable (left right : Value)
  /-- A division by zero, where that is not allowed. -/
  | zeroDivisor
  /-- An operand of an instruction runs past the end of the code. -/
  | truncated (op : Opcode)
  /-- There is no constant with this index. -/
  | constant (index : Nat)
  /-- A byte that is no opcode. -/
  | unknown (b : UInt8)
  /-- The code ended and nothing was returned. -/
  | pastEnd
  /-- There is no chunk to run. -/
  | noChunk
  deriving DecidableEq

namespace Trap

/-- The class of a trap. -/
def fault : Trap → Fault
  | overflow _ => .stackOverflow
  | underflow .. => .stackUnderflow
  | notNumber _ | notNumbers .. | notAddable .. => .typeMismatch
  | zeroDivisor => .divisionByZero
  | truncated _ | constant _ | unknown _ | pastEnd | noChunk => .badInstruction

/-- The wording of a trap. -/
def reason : Trap → String
  | overflow limit => s!"stack exceeds {limit} slots"
  | underflow op needed height => s!"{op.name} needs {needed} operand(s), stack has {height}"
  | notNumber v => s!"operand must be a number, got {v.typeName}"
  | notNumbers left right =>
    s!"operands must be numbers, got {left.typeName} and {right.typeName}"
  | notAddable left right =>
    s!"operands must be two numbers or two strings, got {left.typeName} and {right.typeName}"
  | zeroDivisor => "division by zero"
  | truncated op => s!"{op.name} operand truncated"
  | constant index => s!"constant index {index} out of range"
  | unknown b => s!"unknown instruction '{b.toNat}'"
  | pastEnd => "ran past the end of the chunk without returning"
  | noChunk => "chunk uninitialized"

end Trap

/-- A trap and the source line it is blamed on. -/
structure RuntimeError where
  trap : Trap
  line : Int
  deriving DecidableEq

/-- The text of a run-time error with the fault of a given number. -/
def runtimeMessage (line fault : Int) (reason : String) : String :=
  s!"runtime error [L{line}]: {Fault.nameAt fault}: {reason}"

/-- The text of a run-time error. -/
def RuntimeError.message (e : RuntimeError) : String :=
  runtimeMessage e.line e.trap.fault.number e.trap.reason

end Lox
