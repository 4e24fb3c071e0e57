import Lox.Expr.Basic
import Lox.Instr
import Lox.Pool

/-!
# The code of an expression

An expression becomes code that leaves its value on the stack: first the code of the operands,
then the operator's own instructions, which carry the operator's line. The logical operators
jump over the code of their right operand when the left one decides. A jump's operand is the
number of bytes to leap: the pop that drops the left value, and the right operand. It must fit
two bytes. When it does not, the program is rejected, and the operand stays at its greatest.

Code is made from its end: an expression's code is put before the code that follows it.
-/

namespace Lox

/-- An instruction and the source line it comes from. -/
structure Placed where
  instr : Instr
  line : Int
  deriving DecidableEq, Repr

/-- Instructions, and the number of their bytes. -/
structure Code where
  placed : List Placed := []
  size : Nat := 0
  deriving DecidableEq, Repr

/-- The number of bytes of some instructions. -/
def sizeOfAll (is : List Instr) : Nat :=
  is.foldr (fun i n => i.size + n) 0

/-- Instructions of one line put before others. -/
def Code.prepend (line : Int) (is : List Instr) (after : Code) : Code where
  placed := is.map (⟨·, line⟩) ++ after.placed
  size := sizeOfAll is + after.size

/-- The opcode of a unary operator. -/
def UnaryOp.opcode : UnaryOp → Opcode
  | not => .not
  | negate => .negate

/-- The opcodes of a binary operator: three of the comparisons negate another one. -/
def BinaryOp.opcodes : BinaryOp → List Opcode
  | equal => [.equal]
  | notEqual => [.equal, .not]
  | greater => [.greater]
  | greaterEqual => [.less, .not]
  | less => [.less]
  | lessEqual => [.greater, .not]
  | add => [.add]
  | sub => [.sub]
  | mul => [.mul]
  | div => [.div]

namespace Expr

/-- The instruction that pushes a literal. A value without a slot is given the first one. -/
def push (pool : Pool) : Value → Instr
  | .nil => ⟨.pushNil, 0⟩
  | .bool true => ⟨.pushTrue, 0⟩
  | .bool false => ⟨.pushFalse, 0⟩
  | v => ⟨.const, (pool.slot? v).getD 0⟩

/-- The number of bytes of the instruction that pushes a literal. -/
def pushSize : Value → Nat
  | .nil | .bool _ => 1
  | _ => 2

/-- The number of bytes before the right operand of a logical operator. -/
def logicSize : LogicOp → Nat
  | .and => 4
  | .or => 7

/-- The number of bytes of an expression's code, and then `after` more. -/
def sizeThen : Expr → Nat → Nat
  | literal _ v, after => pushSize v + after
  | missing _, after => after
  | group _ e _, after => e.sizeThen after
  | unary _ _ e, after => e.sizeThen (1 + after)
  | binary op _ l r, after => l.sizeThen (r.sizeThen (op.opcodes.length + after))
  | logic op _ l r, after => l.sizeThen (logicSize op + r.sizeThen after)

/-- The number of bytes of an expression's code. -/
def size (e : Expr) : Nat :=
  e.sizeThen 0

/-- The greatest distance that a jump can leap. -/
def maxLeap : Nat := 65535

/-- The instructions of a logical operator before its right operand, which has `n` bytes. -/
def logicCode (op : LogicOp) (n : Nat) : List Instr :=
  match op with
  | .and => [⟨.jumpIfFalse, min (n + 1) maxLeap⟩, ⟨.pop, 0⟩]
  | .or => [⟨.jumpIfFalse, 3⟩, ⟨.jump, min (n + 1) maxLeap⟩, ⟨.pop, 0⟩]

/-- The code of an expression, and then `after`. The right operand of a logical operator is
counted as its code is made, by the bytes that come to stand before `after`. -/
def codeThen (pool : Pool) : Expr → Code → Code
  | literal c v, after => after.prepend c.line [push pool v]
  | missing _, after => after
  | group _ e _, after => e.codeThen pool after
  | unary op c e, after => e.codeThen pool (after.prepend c.line [⟨op.opcode, 0⟩])
  | binary op c l r, after =>
    l.codeThen pool (r.codeThen pool (after.prepend c.line (op.opcodes.map (⟨·, 0⟩))))
  | logic op c l r, after =>
    let right := r.codeThen pool after
    l.codeThen pool (right.prepend c.line (logicCode op (right.size - after.size)))

/-- The accumulating form adds the size of the code to what follows. -/
theorem sizeThen_eq (e : Expr) (after : Nat) : e.sizeThen after = e.size + after := by
  unfold size
  induction e generalizing after with
  | literal _ v => simp [sizeThen]
  | missing _ => simp [sizeThen]
  | group _ e _ ih => exact ih after
  | unary _ _ e ih =>
    simp only [sizeThen]
    rw [ih (1 + after), ih (1 + 0)]
    omega
  | binary op _ l r ihl ihr =>
    simp only [sizeThen]
    rw [ihr (op.opcodes.length + after), ihr (op.opcodes.length + 0),
      ihl (r.sizeThen 0 + (op.opcodes.length + after)),
      ihl (r.sizeThen 0 + (op.opcodes.length + 0))]
    omega
  | logic op _ l r ihl ihr =>
    simp only [sizeThen]
    rw [ihr after, ihl (logicSize op + (r.sizeThen 0 + after)), ihl (logicSize op + r.sizeThen 0)]
    omega

/-- A unary operator adds one byte to the code of its operand. -/
theorem size_unary (op : UnaryOp) (c : Cell) (e : Expr) : (unary op c e).size = e.size + 1 :=
  sizeThen_eq e (1 + 0)

/-- The code of a binary operation is that of its operands and its opcodes. -/
theorem size_binary (op : BinaryOp) (c : Cell) (l r : Expr) :
    (binary op c l r).size = l.size + (r.size + op.opcodes.length) := by
  rw [size, sizeThen, sizeThen_eq, sizeThen_eq]
  rfl

/-- The code of a logical operation is that of its operands, with a jump and what goes with it
between them. -/
theorem size_logic (op : LogicOp) (c : Cell) (l r : Expr) :
    (logic op c l r).size = l.size + (logicSize op + r.size) :=
  sizeThen_eq l (logicSize op + r.size)

/-- The code that pushes a value is as long as `pushSize` says, whichever slot the value has. -/
theorem size_push (pool : Pool) (v : Value) : (push pool v).size = pushSize v := by
  cases v with
  | bool b => cases b <;> rfl
  | _ => rfl

/-- The code between the operands is of the same size wherever its jump leads. -/
theorem sizeOfAll_logicCode (op : LogicOp) (n : Nat) :
    sizeOfAll (logicCode op n) = logicSize op := by
  cases op <;> rfl

/-- Opcodes without operands take one byte each. -/
theorem sizeOfAll_opcodes (op : BinaryOp) :
    sizeOfAll (op.opcodes.map (⟨·, 0⟩)) = op.opcodes.length := by
  cases op <;> rfl

/-- The bytes of code are counted right. -/
theorem size_codeThen (pool : Pool) (e : Expr) (after : Code) :
    (e.codeThen pool after).size = e.size + after.size := by
  rw [← sizeThen_eq]
  induction e generalizing after with
  | literal _ v => simp [codeThen, sizeThen, Code.prepend, sizeOfAll, size_push]
  | missing _ => rfl
  | group _ e _ ih => exact ih after
  | unary op _ e ih =>
    simp only [codeThen, sizeThen, ih]
    cases op <;> rfl
  | binary op _ l r ihl ihr =>
    simp only [codeThen, sizeThen, ihl, ihr, Code.prepend, sizeOfAll_opcodes]
  | logic op _ l r ihl ihr =>
    simp only [codeThen, sizeThen, ihl, Code.prepend, sizeOfAll_logicCode, ihr]

/-- The right operand of a logical operator is counted by what its code adds. -/
theorem codeThen_logic (pool : Pool) (op : LogicOp) (c : Cell) (l r : Expr) (after : Code) :
    (logic op c l r).codeThen pool after =
      l.codeThen pool ((r.codeThen pool after).prepend c.line (logicCode op r.size)) := by
  simp [codeThen, size_codeThen]

end Expr

end Lox
