import Lox.Program.Statement

/-!
# Reading a program

A program is a sequence of statements. Reading does not stop at an error. Of each statement only
the first complaint is recorded, since the others may be its consequences; the reader then
recovers, passing over tokens until it stands after a semicolon or before a `print`, and goes
on. A stray stretch met while recovering is recorded too, and keeps the next statement from
complaining.
-/

namespace Lox

/-- The tokens of a source, ready to be read. -/
structure Feed where
  /-- The strays before the first token. -/
  leading : List Token
  /-- The tokens, each with the strays after it. -/
  cells : List Cell
  /-- The token at the end. -/
  finish : Token

namespace Feed

/-- Puts a token before what follows it: strays gather until the token they come after. -/
def prepend (t : Token) (rest : List Token × List Cell) : List Token × List Cell :=
  if t.kind = .stray then (t :: rest.1, rest.2) else ([], ⟨t, rest.1⟩ :: rest.2)

/-- The tokens that a scan found, ready to be read. -/
def ofScanned (s : Token.Scanned) : Feed :=
  let grouped := s.tokens.foldr prepend ([], [])
  ⟨grouped.1, grouped.2, s.finish⟩

end Feed

/-- What becomes of the value of a statement's expression. -/
inductive Use where
  /-- It is printed, by an instruction on this line. -/
  | print (line : Int)
  /-- It is dropped, by an instruction on this line. -/
  | drop (line : Int)
  /-- It is the result of the program. -/
  | result
  /-- Nothing: the statement is in error. -/
  | nothing
  deriving DecidableEq, Repr

/-- A statement as code is made from it. -/
structure Action where
  expr : Expr
  use : Use

/-- A program as it was read. -/
structure Program where
  actions : List Action
  /-- The constants. -/
  pool : Pool
  /-- What is wrong with it, in source order. -/
  errors : List Diagnostic
  /-- The line on which the source ends. -/
  endLine : Int

namespace Program

/-- How far reading has come. Lists are kept last first. -/
structure Progress where
  actions : List Action := []
  pool : Pool := []
  errors : List Diagnostic := []
  /-- Whether complaints are held back, because one was already recorded. -/
  quiet : Bool := false

/-- Progress after a complaint, if there is one and it is not held back. -/
def Progress.complain (p : Progress) (d? : Option Diagnostic) : Progress :=
  match d? with
  | none => p
  | some d => { p with errors := if p.quiet then p.errors else d :: p.errors, quiet := true }

/-- What becomes of a statement's value, when `rest` follows it. A `print` is carried out in any
case; the value of a statement in error is left alone. -/
def useOf (s : Statement) (quiet : Bool) (rest : List Cell) : Use :=
  if s.print?.isSome then .print s.last.line
  else if quiet then .nothing
  else if rest.isEmpty then .result
  else .drop s.last.line

/-- Progress after a statement, when `rest` follows it. -/
def Progress.take (p : Progress) (s : Statement) (rest : List Cell) : Progress :=
  let pool := p.pool.addAll s.expr.literals
  let p := { p with pool := pool }.complain (s.complaint? pool)
  { p with actions := ⟨s.expr, useOf s p.quiet rest⟩ :: p.actions }

/-- Passes over tokens until after a semicolon or before a `print`. The flag says whether the
reader stands after a semicolon; `found` is the first stray met on the way. -/
def recover : Bool → List Cell → Option Diagnostic → List Cell × Option Diagnostic
  | _, [], found => ([], found)
  | afterSemicolon, c :: cs, found =>
    if afterSemicolon || c.token.kind = .kwPrint then (c :: cs, found)
    else
      recover (c.token.kind = .semicolon) cs (found <|> c.complaint?)

/-- Where to go on after a statement and what has been complained about by then. -/
def resume (p : Progress) (s : Statement) (rest : List Cell) : Progress × List Cell :=
  if p.quiet then
    let (rest, found) := recover (s.last.kind = .semicolon) rest none
    ({ p with quiet := false }.complain found, rest)
  else (p, rest)

/-- Looking for the next statement leaves no more cells than there were. -/
theorem length_recover_le (afterSemicolon : Bool) (cells : List Cell) (found : Option Diagnostic) :
    (recover afterSemicolon cells found).1.length ≤ cells.length := by
  induction cells generalizing afterSemicolon found with
  | nil => simp [recover]
  | cons c cs ih =>
    rw [recover]
    split
    · exact Nat.le_refl _
    · exact Nat.le_succ_of_le (ih ..)

/-- Going on after a statement leaves no more cells than there were. -/
theorem length_resume_le (p : Progress) (s : Statement) (rest : List Cell) :
    (resume p s rest).2.length ≤ rest.length := by
  unfold resume
  split
  · exact length_recover_le ..
  · exact Nat.le_refl _

/-- Reads the statements that are left. -/
def readFrom (finish : Token) (p : Progress) : List Cell → Progress
  | [] => p
  | c :: cs =>
    let s := Statement.parse finish c cs
    let next := resume (p.take s.1 s.2) s.1 s.2
    readFrom finish next.1 next.2
termination_by cells => cells.length
decreasing_by
  exact Nat.lt_of_le_of_lt (length_resume_le ..) (Statement.length_parse_lt ..)

/-- Reads a program. -/
def ofFeed (f : Feed) : Program :=
  let begun : Progress := Progress.complain {} (f.leading.head?.map (⟨.stray, ·⟩))
  let p := readFrom f.finish begun f.cells
  ⟨p.actions.reverse, p.pool, p.errors.reverse, f.finish.line⟩

/-- Reads the program of a source text. -/
def ofSource (cs : List Char) : Program :=
  ofFeed (Feed.ofScanned (Token.scan cs))

end Program

end Lox
