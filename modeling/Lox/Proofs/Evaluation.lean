import Lox.Machine.Run
import Lox.Proofs.Grammar

/-!
# What a program means

The meaning of a program is given on its syntax trees, without code and without a stack. All that is
left of the stack is a number: how many operands are held while an expression is evaluated. A
literal needs room for one more.

`Tree.eval o d e` evaluates the expression `e` while `d` operands are held, and `evalProgram` the
statements one after another. The value of the last statement is the result of the program; where
there is none the result is `nil`, for which there must be room like for a literal.
-/

namespace Lox

open Machine (Options Stop)

/-- The value of a unary operator. -/
def UnaryOp.apply : UnaryOp → Value → Except Trap Value
  | not, v => .ok (.bool !v.isTruthy)
  | negate, .number x => .ok (.number (-x))
  | negate, v => .error (.notNumber v)

/-- The value of a binary operator. The comparisons that include equality are the opposites of the
strict ones, also where a number is NaN. -/
def BinaryOp.apply (o : Options) : BinaryOp → Value → Value → Except Trap Value
  | equal, v, w => .ok (.bool (v.equals w))
  | notEqual, v, w => .ok (.bool !v.equals w)
  | greater, .number x, .number y => .ok (.bool (x > y))
  | greaterEqual, .number x, .number y => .ok (.bool !(x < y))
  | less, .number x, .number y => .ok (.bool (x < y))
  | lessEqual, .number x, .number y => .ok (.bool !(x > y))
  | add, .number x, .number y => .ok (.number (x + y))
  | add, .text s, .text t => .ok (.text (s ++ t))
  | add, v, w => .error (.notAddable v w)
  | sub, .number x, .number y => .ok (.number (x - y))
  | mul, .number x, .number y => .ok (.number (x * y))
  | div, .number x, .number y =>
    if o.strictDivision && y == 0 then .error .zeroDivisor else .ok (.number (x / y))
  | _, v, w => .error (.notNumbers v w)

/-- Whether the left operand of a logical operator decides. -/
def LogicOp.decides : LogicOp → Value → Bool
  | and, v => !v.isTruthy
  | or, v => v.isTruthy

/-- The outcome of an operation, blamed on a line if it is a trap. -/
def blame (line : Nat) (x : Except Trap Value) : Except RuntimeError Value :=
  x.mapError fun t => ⟨t, line⟩

/-- The value of an expression, while `d` operands are held. -/
def Tree.eval (o : Options) (d : Nat) : Tree → Except RuntimeError Value
  | literal t v => if o.limit ≤ d then .error ⟨.overflow o.limit, t.line⟩ else .ok v
  | group _ e _ => e.eval o d
  | unary op t e => do
    let v ← e.eval o d
    blame t.line (op.apply v)
  | binary op t l r => do
    let v ← l.eval o d
    let w ← r.eval o (d + 1)
    blame t.line (op.apply o v w)
  | logic op _ l r => do
    let v ← l.eval o d
    if op.decides v then return v else r.eval o d

/-- The result of a program that ends on a line, and the sink afterwards. -/
def evalProgram {κ : Type} [Sink κ] (o : Options) (endLine : Nat) :
    List Grammar.Sentence → κ → Except Stop Value × κ
  | [], k => (if o.limit ≤ 0 then .error (.fault ⟨.overflow o.limit, endLine⟩) else .ok .nil, k)
  | .print _ e _ :: p, k =>
    match e.eval o 0 with
    | .error err => (.error (.fault err), k)
    | .ok v =>
      match Sink.write k (v.printed ++ [0x0A]) with
      | (k, some reason) => (.error (.refused reason), k)
      | (k, none) => evalProgram o endLine p k
  | .expr e _ :: p, k =>
    match e.eval o 0 with
    | .error err => (.error (.fault err), k)
    | .ok v => if p.isEmpty then (.ok v, k) else evalProgram o endLine p k

/-- An expression has a value only if there is room for it. -/
theorem Tree.lt_limit_of_eval {o : Options} {d : Nat} {e : Tree} {v : Value}
    (h : e.eval o d = .ok v) : (d : Int) < o.limit := by
  induction e generalizing v with
  | literal t w =>
    rw [eval] at h
    split at h
    · cases h
    · omega
  | group l e r ih => exact ih h
  | unary op t e ih =>
    cases he : e.eval o d with
    | error err =>
      rw [eval, he] at h
      cases h
    | ok w => exact ih he
  | binary op t l r ihl _ | logic op t l r ihl _ =>
    cases hl : l.eval o d with
    | error err =>
      rw [eval, hl] at h
      cases h
    | ok w => exact ihl hl

end Lox
