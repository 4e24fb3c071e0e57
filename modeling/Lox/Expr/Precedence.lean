import Lox.Token.Basic

/-!
# Operators and precedence

Operators bind at a level. A level's rank grows as it binds tighter. An operator that stands
between two operands continues an expression being read when its rank is at least the floor that
the reader of that expression has set; what follows the operator is then read with a floor of
the operator's own. For arithmetic and comparisons that floor is one above the operator's rank,
so chains of them group to the left; for `and` and `or` it is the rank itself, so chains of them
group to the right.
-/

namespace Lox

/-- The levels of binding, from loosest to tightest. -/
inductive Precedence where
  | none | assignment | or | and | equality | comparison | term | factor | unary | call | primary
  deriving DecidableEq, Repr

namespace Precedence

/-- All levels, in order. -/
def all : List Precedence :=
  [none, assignment, or, and, equality, comparison, term, factor, unary, call, primary]

/-- The rank of a level. -/
def rank : Precedence → Nat
  | none => 0
  | assignment => 1
  | or => 2
  | and => 3
  | equality => 4
  | comparison => 5
  | term => 6
  | factor => 7
  | unary => 8
  | call => 9
  | primary => 10

/-- The name of a level. -/
def name : Precedence → String
  | none => "PrecNone"
  | assignment => "PrecAssign"
  | or => "PrecOr"
  | and => "PrecAnd"
  | equality => "PrecEqual"
  | comparison => "PrecComp"
  | term => "PrecTerm"
  | factor => "PrecFactor"
  | unary => "PrecUnary"
  | call => "PrecCall"
  | primary => "PrecPrimary"

/-- The name of the level with a given rank, whether there is one or not. -/
def nameAt (n : Int) : String :=
  match if n < 0 then Option.none else all[n.toNat]? with
  | some p => p.name
  | Option.none => s!"Prec({n})"

end Precedence

/-- The operators that stand before their operand. -/
inductive UnaryOp where
  | not | negate
  deriving DecidableEq, Repr

/-- The operators that stand between two operands and evaluate both. -/
inductive BinaryOp where
  | equal | notEqual | greater | greaterEqual | less | lessEqual | add | sub | mul | div
  deriving DecidableEq, Repr

/-- The operators whose right operand is evaluated only if the left one does not decide. -/
inductive LogicOp where
  | and | or
  deriving DecidableEq, Repr

/-- The level of a binary operator. -/
def BinaryOp.precedence : BinaryOp → Precedence
  | equal | notEqual => .equality
  | greater | greaterEqual | less | lessEqual => .comparison
  | add | sub => .term
  | mul | div => .factor

/-- The level of a logical operator. -/
def LogicOp.precedence : LogicOp → Precedence
  | and => .and
  | or => .or

/-- An operator between two operands. -/
inductive Operator where
  | binary (op : BinaryOp)
  | logic (op : LogicOp)
  deriving DecidableEq, Repr

namespace Operator

/-- The rank of an operator. -/
def rank : Operator → Nat
  | binary op => op.precedence.rank
  | logic op => op.precedence.rank

/-- The floor for the right operand. -/
def rightFloor : Operator → Nat
  | binary op => op.precedence.rank + 1
  | logic op => op.precedence.rank

/-- The operator that a kind of token is, between two operands. -/
def ofKind? : Token.Kind → Option Operator
  | .bangEqual => some (.binary .notEqual)
  | .equalEqual => some (.binary .equal)
  | .greater => some (.binary .greater)
  | .greaterEqual => some (.binary .greaterEqual)
  | .less => some (.binary .less)
  | .lessEqual => some (.binary .lessEqual)
  | .plus => some (.binary .add)
  | .minus => some (.binary .sub)
  | .star => some (.binary .mul)
  | .slash => some (.binary .div)
  | .kwAnd => some (.logic .and)
  | .kwOr => some (.logic .or)
  | _ => none

end Operator

/-- The operator that a kind of token is, before an operand. -/
def UnaryOp.ofKind? : Token.Kind → Option UnaryOp
  | .bang => some .not
  | .minus => some .negate
  | _ => none

end Lox
