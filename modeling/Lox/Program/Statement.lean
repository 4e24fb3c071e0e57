import Lox.Expr.Complaint
import Lox.Expr.Parse

/-!
# Statements

A statement is an expression, perhaps after `print`, and a semicolon. The last statement of a
program may leave the semicolon out if it is not a `print`.
-/

namespace Lox

/-- How a statement ends. -/
inductive Ending where
  /-- At its semicolon. -/
  | semicolon (cell : Cell)
  /-- Before the end of the source, which may end it. -/
  | atEnd
  /-- Before a token that does not end it. -/
  | unended (before : Token)
  deriving DecidableEq, Repr

/-- A statement as it was read. -/
structure Statement where
  /-- The word `print`, if it begins with that. -/
  print? : Option Cell
  expr : Expr
  ending : Ending

namespace Statement

/-- Whether the next token is a semicolon; if so, that token and what follows it. -/
def semicolon? : List Cell → Option (Cell × List Cell)
  | c :: cs => if c.token.kind = .semicolon then some (c, cs) else none
  | [] => none

/-- The next token. -/
def upcoming (finish : Token) : List Cell → Token
  | c :: _ => c.token
  | [] => finish

/-- How a statement ends, and the cells after it. -/
def readEnding (finish : Token) (print : Bool) (cells : List Cell) : Ending × List Cell :=
  match semicolon? cells with
  | some (c, cs) => (.semicolon c, cs)
  | none =>
    if cells.isEmpty && !print then (.atEnd, cells) else (.unended (upcoming finish cells), cells)

/-- Reads the statement that begins with a cell. -/
def parse (finish : Token) (c : Cell) (cs : List Cell) : Statement × List Cell :=
  let print := c.token.kind = .kwPrint
  let read := Expr.parse finish (if print then cs else c :: cs)
  let ended := readEnding finish print read.2
  (⟨if print then some c else none, read.1, ended.1⟩, ended.2)

/-- The last token of a statement that was consumed. -/
def last (s : Statement) : Token :=
  match s.ending with
  | .semicolon c => c.token
  | _ => s.expr.last

/-- The reason to complain when a statement does not end where it should. -/
def due (s : Statement) : Reason :=
  if s.print?.isSome then .expectEndOfValue else .expectEndOfExpression

/-- The complaint about how a statement ends. -/
def endComplaint? (s : Statement) : Option Diagnostic :=
  match s.ending with
  | .semicolon c => c.complaint?
  | .atEnd => none
  | .unended t => some (Expr.unexpected s.due t)

/-- The first complaint about a statement, in the order in which reading it meets them. -/
def complaint? (pool : Pool) (s : Statement) : Option Diagnostic :=
  (s.print?.bind Cell.complaint?) <|> (s.expr.findThen pool ⟨s.endComplaint?, 0⟩).complaint?

/-- Reading the end of a statement leaves no more cells than there were. -/
theorem length_readEnding_le (finish : Token) (print : Bool) (cells : List Cell) :
    (readEnding finish print cells).2.length ≤ cells.length := by
  unfold readEnding
  split
  · rename_i c cs h
    cases cells with
    | nil => simp [semicolon?] at h
    | cons d ds =>
      simp only [semicolon?] at h
      split at h
      · simp only [Option.some.injEq, Prod.mk.injEq] at h
        simp [← h.2]
      · simp at h
  · split <;> exact Nat.le_refl _

/-- Reading a statement consumes at least one token. -/
theorem length_parse_lt (finish : Token) (c : Cell) (cs : List Cell) :
    (parse finish c cs).2.length < (c :: cs).length := by
  unfold parse
  refine Nat.lt_of_le_of_lt (length_readEnding_le ..) ?_
  split
  · exact Nat.lt_succ_of_le (Expr.length_parseFrom_le ..)
  · exact Expr.length_parse_lt ..

end Statement

end Lox
