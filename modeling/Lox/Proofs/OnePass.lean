import Lox.Compile

/-!
# Compiling in one pass

Here a source is compiled the way a compiler does that keeps no tree. It asks the scanner for one
token after another, holds on to the last two, and writes code as soon as a construct is recognized.
What begins an operand and what continues one is looked up in a table of rules by the kind of the
token. Jumps are written before their distance is known, and the distance is put in later.

Nothing in these definitions says that they come to an end, or that what they look up is there. A
`Run` may break down, at a case that should be impossible or at an index that is out of range, and
it may never end. That neither happens, and that the outcome is that of `compile`, is proved
elsewhere.
-/

namespace Lox

/-- The number of a kind. -/
def Token.Kind.index (k : Token.Kind) : Nat :=
  all.idxOf k

namespace OnePass

/-- What would be a fault of the compiler and not of the source. -/
inductive Breakdown where
  /-- A case that is taken to be impossible. -/
  | unreachable
  /-- There is no rule with the number of a kind. -/
  | noRule (kind : Token.Kind)
  /-- There is no byte of code at an offset. -/
  | noByte (offset : Nat)
  /-- A text is too short to have quotes. -/
  | noQuotes (lexeme : Bytes)
  /-- A number is not spelled like one. -/
  | noNumeral (lexeme : List Char)

/-- What a step of the compiler comes to: an outcome, a breakdown, or nothing at all if it never
ends. -/
abbrev Run (α : Type) : Type :=
  ExceptT Breakdown Option α

/-! ## Rules -/

/-- How a token begins an operand. -/
inductive Opening where
  | grouping | unary | text | number | word
  deriving DecidableEq, Repr

/-- How a token continues an operand. -/
inductive Joining where
  | binary | and | or
  deriving DecidableEq, Repr

/-- What a kind of token does in an expression. -/
structure Rule where
  opening? : Option Opening := none
  joining? : Option Joining := none
  precedence : Precedence := .none
  deriving DecidableEq, Repr

/-- The rules, for the kinds that have one. -/
def entries : List (Token.Kind × Rule) :=
  [(.leftParen, { opening? := some .grouping }),
   (.minus, { opening? := some .unary, joining? := some .binary, precedence := .term }),
   (.plus, { joining? := some .binary, precedence := .term }),
   (.slash, { joining? := some .binary, precedence := .factor }),
   (.star, { joining? := some .binary, precedence := .factor }),
   (.bang, { opening? := some .unary }),
   (.bangEqual, { joining? := some .binary, precedence := .equality }),
   (.equalEqual, { joining? := some .binary, precedence := .equality }),
   (.greater, { joining? := some .binary, precedence := .comparison }),
   (.greaterEqual, { joining? := some .binary, precedence := .comparison }),
   (.less, { joining? := some .binary, precedence := .comparison }),
   (.lessEqual, { joining? := some .binary, precedence := .comparison }),
   (.text, { opening? := some .text }),
   (.number, { opening? := some .number }),
   (.kwAnd, { joining? := some .and, precedence := .and }),
   (.kwOr, { joining? := some .or, precedence := .or }),
   (.kwFalse, { opening? := some .word }),
   (.kwNil, { opening? := some .word }),
   (.kwTrue, { opening? := some .word }),
   (.eof, {})]

/-- The rules by number, up to the greatest number that has one. -/
def table : List Rule :=
  (List.range (entries.foldl (fun n entry => max n (entry.1.index + 1)) 0)).map fun n =>
    match entries.find? fun entry => entry.1.index = n with
    | some (_, rule) => rule
    | none => {}

/-- Looks up the rule of a kind. -/
def ruleOf (kind : Token.Kind) : Run Rule :=
  match table[kind.index]? with
  | some rule => pure rule
  | none => throw (.noRule kind)

/-! ## The state of the compiler -/

/-- The state of the compiler. -/
structure State where
  scanner : Token.Scanner
  /-- The token that was taken last. -/
  prev : Token := ⟨.leftParen, [], 0⟩
  /-- The token that comes next. -/
  curr : Token := ⟨.leftParen, [], 0⟩
  chunk : Chunk := {}
  /-- The literals that have a slot, with their slots. -/
  slots : List (Value × Nat) := []
  /-- Whether the last statement leaves its value as the result. -/
  leavesResult : Bool := false
  /-- The errors so far, last first. -/
  errors : List Diagnostic := []
  /-- Whether errors are not recorded, because one has been. -/
  panicking : Bool := false

namespace State

/-- Records an error at a token. -/
def errorAt (s : State) (t : Token) (reason : Reason) : State :=
  if s.panicking then s
  else { s with panicking := true, errors := ⟨reason, t⟩ :: s.errors }

/-- Writes code on a line. -/
def emit (s : State) (line : Int) (bytes : Bytes) : State :=
  { s with chunk := s.chunk.write bytes line }

/-- Takes tokens from the scanner up to one that is not stray. -/
def skipStrays (s : State) : Run State :=
  let (t, scanner) := s.scanner.next
  let s := { s with curr := t, scanner := scanner }
  if t.kind = .stray then s.errorAt t .stray |>.skipStrays else pure s
partial_fixpoint

/-- Goes on to the next token. -/
def advance (s : State) : Run State :=
  skipStrays { s with prev := s.curr }

/-- Takes a token that is due. -/
def consume (s : State) (kind : Token.Kind) (reason : Reason) : Run State :=
  if s.curr.kind = kind then s.advance else pure (s.errorAt s.curr reason)

/-- The slot of a constant, which is added if it is new. One that finds no slot is given the
first. -/
def slotOf (s : State) (v : Value) : State × Nat :=
  match s.slots.find? fun entry => entry.1.equals v with
  | some (_, slot) => (s, slot)
  | none =>
    let slot := s.chunk.consts.length
    let s := { s with chunk := s.chunk.addConst v }
    if slot < Pool.capacity then ({ s with slots := s.slots ++ [(v, slot)] }, slot)
    else (s.errorAt s.prev .tooManyConstants, 0)

/-- Writes the instruction that pushes a constant. -/
def emitConst (s : State) (v : Value) : State :=
  let (s, slot) := s.slotOf v
  s.emit s.prev.line [Opcode.const.byte, UInt8.ofNat slot]

/-- Writes a jump whose distance is not known, and gives the offset at which it belongs. -/
def emitJump (s : State) (op : Opcode) : State × Nat :=
  let s := s.emit s.prev.line [op.byte, 0xFF, 0xFF]
  (s, s.chunk.size - 2)

/-- Puts a byte into the code. -/
def patch (s : State) (offset : Nat) (b : UInt8) : Run State :=
  if offset < s.chunk.size then
    pure { s with chunk := { s.chunk with code := s.chunk.code.set offset b } }
  else throw (.noByte offset)

/-- Puts in the distance of a jump, from its operand to the end of the code. -/
def patchJump (s : State) (offset : Nat) : Run State := do
  let distance : Int := (s.chunk.size : Int) - offset - 2
  if 0 ≤ distance ∧ distance ≤ 65535 then
    let s ← s.patch offset (UInt8.ofNat (distance.toNat / 256))
    s.patch (offset + 1) (UInt8.ofNat distance.toNat)
  else pure (s.errorAt s.prev .jumpTooFar)

/-! ## Operands without others in them -/

/-- Digits, and perhaps a point and more digits. -/
def isNumeral (cs : List Char) : Bool :=
  match cs.dropWhile Token.isDigit with
  | [] => !cs.isEmpty
  | '.' :: fraction => !(cs.takeWhile Token.isDigit).isEmpty && !fraction.isEmpty &&
      fraction.all Token.isDigit
  | _ => false

/-- Compiles a number. -/
def number (s : State) : Run State :=
  if isNumeral s.prev.lexeme then pure (s.emitConst (.number (Number.ofLiteral s.prev.lexeme)))
  else throw (.noNumeral s.prev.lexeme)

/-- Compiles a text, which is what stands between the first and the last byte of its lexeme. -/
def text (s : State) : Run State :=
  let bytes := Utf8.encode s.prev.lexeme
  if 2 ≤ bytes.length then pure (s.emitConst (.text ((bytes.take (bytes.length - 1)).drop 1)))
  else throw (.noQuotes bytes)

/-- Compiles one of the words that have an instruction of their own. -/
def word (s : State) : Run State :=
  match s.prev.kind with
  | .kwFalse => pure (s.emit s.prev.line [Opcode.pushFalse.byte])
  | .kwNil => pure (s.emit s.prev.line [Opcode.pushNil.byte])
  | .kwTrue => pure (s.emit s.prev.line [Opcode.pushTrue.byte])
  | _ => throw .unreachable

/-- Writes the instruction of an operator before its operand. -/
def emitUnary (s : State) (op : Token) : Run State :=
  match op.kind with
  | .bang => pure (s.emit op.line [Opcode.not.byte])
  | .minus => pure (s.emit op.line [Opcode.negate.byte])
  | _ => throw .unreachable

/-- Writes the instructions of an operator between its operands. -/
def emitBinary (s : State) (op : Token) : Run State :=
  match op.kind with
  | .bangEqual => pure (s.emit op.line [Opcode.equal.byte, Opcode.not.byte])
  | .equalEqual => pure (s.emit op.line [Opcode.equal.byte])
  | .greater => pure (s.emit op.line [Opcode.greater.byte])
  | .greaterEqual => pure (s.emit op.line [Opcode.less.byte, Opcode.not.byte])
  | .less => pure (s.emit op.line [Opcode.less.byte])
  | .lessEqual => pure (s.emit op.line [Opcode.greater.byte, Opcode.not.byte])
  | .plus => pure (s.emit op.line [Opcode.add.byte])
  | .minus => pure (s.emit op.line [Opcode.sub.byte])
  | .star => pure (s.emit op.line [Opcode.mul.byte])
  | .slash => pure (s.emit op.line [Opcode.div.byte])
  | _ => throw .unreachable

/-! ## Expressions -/

mutual

/-- Compiles an expression whose operators have at least the rank `floor`. -/
def expression (s : State) (floor : Nat) : Run State := do
  let s ← s.advance
  let rule ← ruleOf s.prev.kind
  match rule.opening? with
  | none => pure (s.errorAt s.prev .expectExpression)
  | some opening => do
    let s ← s |>.operand opening
    let s ← s |>.operators floor
    if floor ≤ Precedence.assignment.rank ∧ s.curr.kind = .equal then
      pure (s.errorAt s.curr .invalidTarget)
    else pure s
partial_fixpoint

/-- Compiles an operand that the last token has begun. -/
def operand (s : State) (opening : Opening) : Run State :=
  match opening with
  | .grouping => do
    let s ← s |>.expression Precedence.assignment.rank
    s.consume .rightParen .expectRightParen
  | .unary => do
    let op := s.prev
    let s ← s |>.expression Precedence.unary.rank
    s.emitUnary op
  | .text => s.text
  | .number => s.number
  | .word => s.word
partial_fixpoint

/-- Compiles operators and their right operands, as long as they have the rank for it. -/
def operators (s : State) (floor : Nat) : Run State := do
  let rule ← ruleOf s.curr.kind
  if rule.precedence.rank < floor then pure s
  else do
    let s ← s.advance
    match rule.joining? with
    | none => throw .unreachable
    | some joining => do
      let s ← s |>.operator joining
      s |>.operators floor
partial_fixpoint

/-- Compiles the right operand of the operator that was taken last. -/
def operator (s : State) (joining : Joining) : Run State :=
  match joining with
  | .binary => do
    let op := s.prev
    let rule ← ruleOf op.kind
    let s ← s |>.expression (rule.precedence.rank + 1)
    s.emitBinary op
  | .and => do
    let (s, skipJump) := s.emitJump .jumpIfFalse
    let s := s.emit s.prev.line [Opcode.pop.byte]
    let s ← s |>.expression Precedence.and.rank
    s.patchJump skipJump
  | .or => do
    let (s, elseJump) := s.emitJump .jumpIfFalse
    let (s, endJump) := s.emitJump .jump
    let s ← s.patchJump elseJump
    let s := s.emit s.prev.line [Opcode.pop.byte]
    let s ← s |>.expression Precedence.or.rank
    s.patchJump endJump
partial_fixpoint

end

/-! ## Statements -/

/-- Takes the end of an expression statement, which may be the end of the source. -/
def endExpression (s : State) : Run State :=
  if s.curr.kind = .eof then pure s else s.consume .semicolon .expectEndOfExpression

/-- Drops the value of an expression statement, or leaves it as the result at the end. -/
def useValue (s : State) : Run State :=
  if s.panicking then pure s
  else if s.curr.kind = .eof then pure { s with leavesResult := true }
  else pure (s.emit s.prev.line [Opcode.pop.byte])

/-- Compiles an expression statement. -/
def expressionStatement (s : State) : Run State := do
  let s ← s.expression Precedence.assignment.rank
  let s ← s.endExpression
  s.useValue

/-- Compiles what follows a `print`. -/
def printStatement (s : State) : Run State := do
  let s ← s.expression Precedence.assignment.rank
  let s ← s.consume .semicolon .expectEndOfValue
  pure (s.emit s.prev.line [Opcode.print.byte])

/-- Passes over tokens up to the end of a statement or the beginning of another. -/
def passOver (s : State) : Run State :=
  if s.curr.kind = .eof then pure s
  else if s.prev.kind = .semicolon ∨ s.curr.kind = .kwPrint then pure s
  else do
    let s ← s.advance
    s |>.passOver
partial_fixpoint

/-- Recovers, if an error has been recorded. -/
def recover (s : State) : Run State :=
  if s.panicking then passOver { s with panicking := false } else pure s

/-- Compiles a statement, and recovers if it is in error. -/
def statement (s : State) : Run State :=
  if s.curr.kind = .kwPrint then do
    let s ← s.advance
    let s ← s.printStatement
    s.recover
  else do
    let s ← s.expressionStatement
    s.recover

/-- Compiles statements up to the end. -/
def statements (s : State) : Run State :=
  if s.curr.kind = .eof then s.advance
  else do
    let s ← s.statement
    s |>.statements
partial_fixpoint

/-- Ends the code. -/
def finish (s : State) : State :=
  let s := if s.leavesResult then s else s.emit s.prev.line [Opcode.pushNil.byte]
  s.emit s.prev.line [Opcode.ret.byte]

/-- The state before the first statement. -/
def start (source : Bytes) : Run State :=
  advance { scanner := { rest := Utf8.decode source } }

/-- The tokens that have not been taken. -/
def ahead (s : State) : List Token :=
  if s.curr.kind = .eof then []
  else s.curr :: (Token.scanFrom 0 s.scanner.rest s.scanner.line []).tokens

end State

/-- The states between the statements of a source: the first one, and the one after each statement
that is compiled before the end. -/
inductive Reached (source : Bytes) : State → Prop where
  | start {s : State} : State.start source = pure s → Reached source s
  | turn {s s' : State} : Reached source s → s.curr.kind ≠ .eof → s.statement = pure s' →
      Reached source s'

/-- What is handed back: a chunk, or errors. -/
structure Returned where
  chunk? : Option Chunk
  errors? : Option (List Diagnostic)

/-- Compiles a source text in one pass. -/
def compile (source : Bytes) : Run Returned := do
  let s ← State.start source
  let s ← s.statements
  let s := s.finish
  pure (if s.errors.isEmpty then ⟨some s.chunk, none⟩ else ⟨none, some s.errors.reverse⟩)

end OnePass

end Lox
