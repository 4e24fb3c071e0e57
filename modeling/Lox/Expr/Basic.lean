import Lox.Expr.Precedence
import Lox.Token.Scan
import Lox.Value

/-!
# Expressions

The tree of an expression keeps every token it was read from, each together with the stray
stretches skipped right after it, so that the tree accounts for all that was consumed. Where
the source breaks the grammar the tree says so: an operand may be missing, and a group may be
left open. A tree with neither, and without strays, is an expression of the language.

Trees grow long to the left, one level for each operator of a chain. Functions on them therefore
carry what comes after the tree as an argument: then the call on the left operand is the last
thing they do.
-/

namespace Lox

/-- A token and the stray stretches between it and the next token. -/
structure Cell where
  token : Token
  strays : List Token
  deriving DecidableEq, Repr

/-- How a group ends: at its parenthesis, or open before some other token. -/
inductive Closing where
  | closed (paren : Cell)
  | unclosed (before : Token)
  deriving DecidableEq, Repr

/-- An expression as it was read. -/
inductive Expr where
  /-- A literal, with its value. -/
  | literal (cell : Cell) (value : Value)
  /-- A token that was taken where an operand should begin. -/
  | missing (cell : Cell)
  /-- An expression in parentheses. -/
  | group (paren : Cell) (inner : Expr) (closing : Closing)
  /-- An operator before its operand. -/
  | unary (op : UnaryOp) (cell : Cell) (operand : Expr)
  /-- An operator between two operands. -/
  | binary (op : BinaryOp) (cell : Cell) (left right : Expr)
  /-- A logical operator between two operands. -/
  | logic (op : LogicOp) (cell : Cell) (left right : Expr)

namespace Cell

/-- The source line of a token, as code records it. -/
def line (c : Cell) : Int :=
  c.token.line

end Cell

namespace Expr

/-- The last token of an expression that was consumed. -/
def last : Expr → Token
  | literal c _ => c.token
  | missing c => c.token
  | group _ inner (.unclosed _) => inner.last
  | group _ _ (.closed c) => c.token
  | unary _ _ e => e.last
  | binary _ _ _ r => r.last
  | logic _ _ _ r => r.last

/-- The values of the literals of an expression in source order, and then `after`. -/
def literalsThen : Expr → List Value → List Value
  | literal _ v, after => v :: after
  | missing _, after => after
  | group _ e _, after => e.literalsThen after
  | unary _ _ e, after => e.literalsThen after
  | binary _ _ l r, after => l.literalsThen (r.literalsThen after)
  | logic _ _ l r, after => l.literalsThen (r.literalsThen after)

/-- The values of the literals of an expression, in source order. -/
def literals (e : Expr) : List Value :=
  e.literalsThen []

/-- The accumulating form collects the literals in front of what follows. -/
theorem literalsThen_eq (e : Expr) (after : List Value) :
    e.literalsThen after = e.literals ++ after := by
  unfold literals
  induction e generalizing after with
  | literal _ v => rfl
  | missing _ => rfl
  | group _ e _ ih => exact ih after
  | unary _ _ e ih => exact ih after
  | binary _ _ l r ihl ihr | logic _ _ l r ihl ihr =>
    simp only [literalsThen]
    rw [ihl, ihr, ihl (r.literalsThen []), List.append_assoc]

end Expr

end Lox
