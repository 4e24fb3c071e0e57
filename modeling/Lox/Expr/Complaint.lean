import Lox.Diagnostic
import Lox.Expr.Code

/-!
# What is wrong with an expression

The first complaint about an expression, in the order in which reading it meets them. Stray
stretches are met when the token before them is taken, hence before any complaint about that token
itself. A literal is complained about when it finds no slot in the pool, an operand of a logical
operator when its code is too long to be jumped over.
-/

namespace Lox

/-- The complaint about the strays after a token. -/
def Cell.complaint? (c : Cell) : Option Diagnostic :=
  c.strays.head?.map (⟨.stray, ·⟩)

namespace Expr

/-- The complaint about a token where something else was due: after an expression an equals sign
is taken for an attempt to assign. -/
def unexpected (due : Reason) (t : Token) : Diagnostic :=
  ⟨if t.kind = .equal then .invalidTarget else due, t⟩

/-- The complaint about how a group ends. -/
def closingComplaint? : Closing → Option Diagnostic
  | .closed c => c.complaint?
  | .unclosed t => some (unexpected .expectRightParen t)

/-- The complaint about a literal without a slot. -/
def literalComplaint? (pool : Pool) (c : Cell) (v : Value) : Option Diagnostic :=
  if pool.lacks v then some ⟨.tooManyConstants, c.token⟩ else none

/-- The complaint about a right operand of `n` bytes that is too long to be jumped over. -/
def leapComplaint? (right : Expr) (n : Nat) : Option Diagnostic :=
  if maxLeap < n + 1 then some ⟨.jumpTooFar, right.last⟩ else none

/-- The first complaint about some source, and the number of bytes of the code it becomes. -/
structure Finding where
  complaint? : Option Diagnostic := none
  size : Nat := 0
  deriving DecidableEq, Repr

/-- A finding after a complaint, if there is one. -/
def Finding.after (k : Finding) (d? : Option Diagnostic) : Finding :=
  { k with complaint? := d? <|> k.complaint? }

/-- What is found in an expression, and then in what comes after it. -/
def findThen (pool : Pool) : Expr → Finding → Finding
  | literal c v, k =>
    ⟨c.complaint? <|> literalComplaint? pool c v <|> k.complaint?, pushSize v + k.size⟩
  | missing c, k => ⟨c.complaint? <|> some ⟨.expectExpression, c.token⟩, k.size⟩
  | group c e closing, k =>
    (e.findThen pool (k.after (closingComplaint? closing))).after c.complaint?
  | unary _ c e, k => (e.findThen pool ⟨k.complaint?, 1 + k.size⟩).after c.complaint?
  | binary op c l r, k =>
    l.findThen pool
      ((r.findThen pool ⟨k.complaint?, op.opcodes.length + k.size⟩).after c.complaint?)
  | logic op c l r, k =>
    let right := r.findThen pool {}
    l.findThen pool
      ⟨c.complaint? <|> right.complaint? <|> leapComplaint? r right.size <|> k.complaint?,
        logicSize op + (right.size + k.size)⟩

/-- The bytes of code are counted as they are made. -/
theorem size_findThen (pool : Pool) (e : Expr) (k : Finding) :
    (e.findThen pool k).size = e.sizeThen k.size := by
  induction e generalizing k with
  | literal _ v => rfl
  | missing _ => rfl
  | group _ e _ ih => exact ih _
  | unary _ _ e ih => exact ih _
  | binary op _ l r ihl ihr =>
    simp only [findThen, sizeThen, ihl, Finding.after, ihr]
  | logic op _ l r ihl ihr =>
    simp only [findThen, sizeThen, ihl, ihr]
    rw [sizeThen_eq r k.size]
    rfl

end Expr

end Lox
