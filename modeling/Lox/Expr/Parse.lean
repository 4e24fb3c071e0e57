import Lox.Decimal.Number
import Lox.Expr.Basic

/-!
# Reading an expression

Expressions are read from left to right with a stack of frames, one for each construct that has
begun and still lacks its last operand. A token that can begin an operand either is a literal or
opens a frame. After an operand the next token decides: an operator that binds at least as
tightly as the innermost frame's floor takes the operand as its left one and opens a frame; any
other token completes the innermost frame, and is put to the same question one frame further
out. Each token is looked at once, and the reading is a recursion on the tokens themselves.

When a token cannot begin an operand, it is consumed all the same, and the innermost construct
is completed with the gap in it without asking whether an operator follows. Reading then goes on
in the construct around it.
-/

namespace Lox.Expr

/-- What a token begins, where an operand is expected. -/
inductive Start where
  | literal (v : Value)
  | group
  | unary (op : UnaryOp)
  | nothing
  deriving DecidableEq

/-- The text between the quotes of a string literal. -/
def unquoted (lexeme : List Char) : Bytes :=
  Utf8.encode (lexeme.drop 1).dropLast

/-- What a token begins, where an operand is expected. -/
def start (t : Token) : Start :=
  match t.kind with
  | .number => .literal (.number (Number.ofLiteral t.lexeme))
  | .text => .literal (.text (unquoted t.lexeme))
  | .kwTrue => .literal (.bool true)
  | .kwFalse => .literal (.bool false)
  | .kwNil => .literal .nil
  | .leftParen => .group
  | kind =>
    match UnaryOp.ofKind? kind with
    | some op => .unary op
    | none => .nothing

/-- A construct that lacks its last operand. -/
inductive Frame where
  | group (paren : Cell)
  | unary (op : UnaryOp) (cell : Cell)
  | binary (op : BinaryOp) (cell : Cell) (left : Expr)
  | logic (op : LogicOp) (cell : Cell) (left : Expr)

namespace Frame

/-- The least rank of an operator that continues the operand of a frame. -/
def floor : Frame → Nat
  | group _ => Precedence.assignment.rank
  | unary .. => Precedence.unary.rank
  | binary op .. => (Operator.binary op).rightFloor
  | logic op .. => (Operator.logic op).rightFloor

/-- The frame that an operator opens. -/
def ofOperator (op : Operator) (c : Cell) (left : Expr) : Frame :=
  match op with
  | .binary op => binary op c left
  | .logic op => logic op c left

/-- A frame completed by its operand, before a token that does not continue it. -/
def complete (next : Token) : Frame → Expr → Expr
  | group c, e => .group c e (.unclosed next)
  | unary op c, e => .unary op c e
  | binary op c l, e => .binary op c l e
  | logic op c l, e => .logic op c l e

end Frame

/-- What the token after an operand leads to. -/
inductive Settled where
  /-- It is an operator whose left operand is `e`. -/
  | shift (op : Operator) (e : Expr) (frames : List Frame)
  /-- It closes the group that `paren` opened around `e`. -/
  | close (paren : Cell) (e : Expr) (frames : List Frame)
  /-- The expression ended before it. -/
  | done (e : Expr)

/-- The operator that a token is, if it continues an operand read with a floor. -/
def continuing? (floor : Nat) (next : Token) : Option Operator :=
  (Operator.ofKind? next.kind).filter fun op => floor ≤ op.rank

/-- Puts the token after an operand `e` to the frames, innermost first. The flag says whether an
operator may continue the operand. -/
def settle (next : Token) : Bool → Expr → List Frame → Settled
  | open_, e, [] =>
    match if open_ then continuing? Precedence.assignment.rank next else none with
    | some op => .shift op e []
    | none => .done e
  | open_, e, f :: fs =>
    match if open_ then continuing? f.floor next else none with
    | some op => .shift op e (f :: fs)
    | none =>
      match f, next.kind with
      | .group paren, .rightParen => .close paren e fs
      | f, _ => settle next true (f.complete next e) fs

/-- Where the reader stands: before an operand, or after one. After a gap no operator may
continue it. -/
inductive Mode where
  | operand
  | after (open_ : Bool) (e : Expr)

/-- The expression when the tokens have run out. At the end no operator and no parenthesis
follows, so the frames are completed one by one. -/
def finishAll (finish : Token) (e : Expr) (fs : List Frame) : Expr :=
  fs.foldl (fun e f => f.complete finish e) e

/-- Reads an expression from the given mode and frames. It gives the expression and the cells
after it; `finish` is the token at the end of the source. -/
def parseFrom (finish : Token) : List Cell → Mode → List Frame → Expr × List Cell
  | [], .operand, fs => (finishAll finish (.missing ⟨finish, []⟩) fs, [])
  | [], .after _ e, fs => (finishAll finish e fs, [])
  | c :: cs, .operand, fs =>
    match start c.token with
    | .literal v => parseFrom finish cs (.after true (.literal c v)) fs
    | .group => parseFrom finish cs .operand (.group c :: fs)
    | .unary op => parseFrom finish cs .operand (.unary op c :: fs)
    | .nothing => parseFrom finish cs (.after false (.missing c)) fs
  | c :: cs, .after open_ e, fs =>
    match settle c.token open_ e fs with
    | .shift op e fs => parseFrom finish cs .operand (.ofOperator op c e :: fs)
    | .close paren e fs => parseFrom finish cs (.after true (.group paren e (.closed c))) fs
    | .done e => (e, c :: cs)

/-- Reads an expression. -/
def parse (finish : Token) (cells : List Cell) : Expr × List Cell :=
  parseFrom finish cells .operand []

/-- Parsing leaves no more cells than it was given. -/
theorem length_parseFrom_le (finish : Token) (cells : List Cell) (mode : Mode)
    (frames : List Frame) : (parseFrom finish cells mode frames).2.length ≤ cells.length := by
  induction cells generalizing mode frames with
  | nil => cases mode <;> simp [parseFrom]
  | cons c cs ih =>
    cases mode with
    | operand =>
      rw [parseFrom]
      split <;> exact Nat.le_succ_of_le (ih ..)
    | after o e =>
      rw [parseFrom]
      split
      · exact Nat.le_succ_of_le (ih ..)
      · exact Nat.le_succ_of_le (ih ..)
      · exact Nat.le_refl _

/-- Reading an expression consumes at least one token, if there is one. -/
theorem length_parse_lt (finish : Token) (c : Cell) (cs : List Cell) :
    (parse finish (c :: cs)).2.length < (c :: cs).length := by
  unfold parse
  rw [parseFrom]
  split <;> exact Nat.lt_succ_of_le (length_parseFrom_le ..)

end Lox.Expr
