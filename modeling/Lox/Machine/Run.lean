import Lox.Chunk.Listing
import Lox.Log
import Lox.Machine.Console
import Lox.Machine.Fault
import Lox.Machine.Stack

/-!
# Running a chunk

The machine reads the code from its start. Jumps only lead forward, so a run is one pass over
the bytes: `exec` goes through them with a count of bytes still to be passed over, which are the
operands of the last instruction and whatever a jump leaps across. The pass is a recursion on
the code itself, hence it ends, and no instruction is executed twice.

A run starts on an empty stack and keeps nothing for the next one but the sink it prints to,
which may be of any type.
-/

namespace Lox

namespace Machine

/-- The choices for a run. -/
structure Options where
  /-- The greatest number of values on the stack. -/
  limit : Int := 256
  /-- Whether a division by zero is a fault. -/
  strictDivision : Bool := false
  /-- Whether to log the stack and each instruction. -/
  trace : Bool := false
  deriving DecidableEq, Repr

/-- Why a run stops without a value. -/
inductive Stop where
  /-- Something went wrong in the program. -/
  | fault (e : RuntimeError)
  /-- A write failed, for this reason. -/
  | refused (reason : String)
  deriving DecidableEq

/-- The text of the reason why a run stopped. -/
def Stop.message : Stop → String
  | fault e => e.message
  | refused reason => reason

/-- What an instruction does, apart from faults. -/
inductive Effect (κ : Type) where
  /-- Go on with the next instruction. -/
  | next (stack : Stack) (console : κ)
  /-- Leap over as many bytes as the operand says. -/
  | leap (stack : Stack)
  /-- Return a value. -/
  | done (v : Value)
  /-- A write failed, for this reason. -/
  | refused (console : κ) (reason : String)

variable {κ : Type}

/-- Pushes a value, within the limit. -/
def push (o : Options) (s : Stack) (v : Value) : Except Trap Stack :=
  if o.limit ≤ s.height then .error (.overflow o.limit) else .ok (s.push v)

/-- An instruction that pushes a value. -/
def pushing (o : Options) (s : Stack) (k : κ) (v : Value) : Except Trap (Effect κ) := do
  return .next (← push o s v) k

/-- An instruction that takes one operand off the stack. -/
def taking (op : Opcode) (s : Stack) (f : Value → Stack → Except Trap (Effect κ)) :
    Except Trap (Effect κ) :=
  match s.pop? with
  | none => .error (.underflow op 1 s.height)
  | some (v, below) => f v below

/-- An instruction that puts the result of an operation in the place of its two operands. -/
def combining (o : Options) (op : Opcode) (s : Stack) (k : κ)
    (f : Value → Value → Except Trap Value) : Except Trap (Effect κ) :=
  match s.popTwo? with
  | none => .error (.underflow op 2 s.height)
  | some (left, right, below) => do pushing o below k (← f left right)

/-- An operation on two numbers. -/
def numeric (f : Value → Value → Option Value) (left right : Value) : Except Trap Value :=
  match f left right with
  | some v => .ok v
  | none => .error (.notNumbers left right)

/-- A sum. -/
def sum (left right : Value) : Except Trap Value :=
  match left.add? right with
  | some v => .ok v
  | none => .error (.notAddable left right)

/-- A quotient; under strict division a zero divisor of a number is a fault. -/
def quotient (o : Options) (left right : Value) : Except Trap Value :=
  if o.strictDivision && left.isNumber && right.isZero then .error .zeroDivisor
  else numeric Value.div? left right

/-- Executes one instruction. -/
def perform [Sink κ] (o : Options) (consts : List Value) (i : Instr) (s : Stack) (k : κ) :
    Except Trap (Effect κ) :=
  match i.op with
  | .ret => taking i.op s fun v _ => .ok (.done v)
  | .const =>
    match consts[i.operand]? with
    | none => .error (.constant i.operand)
    | some v => pushing o s k v
  | .pushNil => pushing o s k .nil
  | .pushTrue => pushing o s k (.bool true)
  | .pushFalse => pushing o s k (.bool false)
  | .pop => taking i.op s fun _ below => .ok (.next below k)
  | .equal => combining o i.op s k fun l r => .ok (.bool (l.equals r))
  | .greater => combining o i.op s k (numeric Value.greater?)
  | .less => combining o i.op s k (numeric Value.less?)
  | .not => taking i.op s fun v below => pushing o below k (.bool !v.isTruthy)
  | .negate =>
    taking i.op s fun v below =>
      match v.negate? with
      | none => .error (.notNumber v)
      | some w => pushing o below k w
  | .add => combining o i.op s k sum
  | .sub => combining o i.op s k (numeric Value.sub?)
  | .mul => combining o i.op s k (numeric Value.mul?)
  | .div => combining o i.op s k (quotient o)
  | .print =>
    taking i.op s fun v below =>
      match Sink.write k (v.printed ++ [0x0A]) with
      | (k, none) => .ok (.next below k)
      | (k, some reason) => .ok (.refused k reason)
  | .jump => .ok (.leap s)
  | .jumpIfFalse => taking i.op s fun v _ => .ok (if v.isTruthy then .next s k else .leap s)

/-- What a run comes to. -/
structure Outcome (κ : Type) where
  /-- The value returned, or why there is none. -/
  result : Except Stop Value
  /-- The sink afterwards. -/
  console : κ
  /-- The log of the run, newest entry first. -/
  log : List Log.Entry

/-- The trace of one instruction: the stack from its bottom, then the instruction. -/
def traceEntries (stack : Stack) (line : String) : List Log.Entry :=
  let slots := stack.values.reverse.map fun v => s!"[ {v.readable} ]"
  [⟨.trace, line⟩, ⟨.trace, "          " ++ Text.join slots⟩]

/-- The log after looking at the instruction at an offset. -/
def traced (o : Options) (consts : List Value) (offset : Nat) (previous : Option Int) (line : Int)
    (f : Fetched) (stack : Stack) (log : List Log.Entry) : List Log.Entry :=
  if o.trace then traceEntries stack (Chunk.instrLine consts offset previous line f) ++ log
  else log

/-- `exec o c skip offset previous code lines stack console log` runs the code from `skip` bytes
further on. `offset` is where `code` begins in the chunk `c`, `lines` are the lines of its bytes,
and `previous` is the line of the byte before it. -/
def exec [Sink κ] (o : Options) (c : Chunk) :
    Nat → Nat → Option Int → Bytes → List Int → Stack → κ → List Log.Entry → Outcome κ
  | _, _, _, [], _, _, k, log => ⟨.error (.fault ⟨.pastEnd, c.lastLine⟩), k, log⟩
  | skip + 1, offset, _, _ :: code, lines, s, k, log =>
    exec o c skip (offset + 1) lines.head? code lines.tail s k log
  | 0, offset, previous, b :: code, lines, s, k, log =>
    let line := lines.headD 0
    let f := fetch b code
    let log := traced o c.consts offset previous line f s log
    match f with
    | .unknown b => ⟨.error (.fault ⟨.unknown b, line⟩), k, log⟩
    | .truncated op => ⟨.error (.fault ⟨.truncated op, line⟩), k, log⟩
    | .whole i =>
      match perform o c.consts i s k with
      | .error trap => ⟨.error (.fault ⟨trap, line⟩), k, log⟩
      | .ok (.next s k) =>
        exec o c i.op.width (offset + 1) lines.head? code lines.tail s k log
      | .ok (.leap s) =>
        exec o c (i.op.width + i.operand) (offset + 1) lines.head? code lines.tail s k log
      | .ok (.done v) => ⟨.ok v, k, log⟩
      | .ok (.refused k reason) => ⟨.error (.refused reason), k, log⟩

/-- Runs a chunk. -/
def run [Sink κ] (o : Options) (c : Chunk) (k : κ) : Outcome κ :=
  exec o c 0 0 none c.code c.lines .empty k []

end Machine

end Lox
