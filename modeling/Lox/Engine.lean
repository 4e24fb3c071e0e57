import Lox.Machine.Run

/-!
# An engine that is used again

An engine runs one chunk after another. It keeps its options and its sink for as long as it lives.
Beside them it has working storage: the chunk, the offsets of the next and of the current
instruction, and the stack. A run works on that storage and leaves it as it was when the run ended,
whatever the reason: operands that a fault left behind stay there. The next run begins by putting
the storage in order.

Code and lines are laid out as arrays for a run, since an engine goes to its instructions by offset.
-/

namespace Lox

/-- An engine: what it is set to, its sink, and its working storage. -/
structure Engine (κ : Type) where
  options : Machine.Options := {}
  console : κ
  /-- The chunk being run, if any. -/
  chunk? : Option Chunk := none
  /-- The offset of the next instruction. -/
  next : Nat := 0
  /-- The offset of the instruction being executed. -/
  current : Nat := 0
  stack : Stack := .empty

/-- The code and the lines of a chunk, laid out to be read by offset. -/
structure Layout where
  code : Array UInt8
  lines : Array Int

namespace Layout

/-- The layout of a chunk. -/
def ofChunk (c : Chunk) : Layout :=
  ⟨c.code.toArray, c.lines.toArray⟩

/-- The greatest number of operand bytes. -/
def maxWidth : Nat := 2

/-- What stands at an offset of the code, if that lies within it. -/
def fetch? (l : Layout) (offset : Nat) : Option Fetched :=
  l.code[offset]?.map fun b =>
    fetch b (l.code.extract (offset + 1) (offset + 1 + maxWidth)).toList

/-- The line of the byte at an offset, or zero where there is none. -/
def lineAt (l : Layout) (offset : Nat) : Int :=
  l.lines[offset]?.getD 0

/-- The line of the byte before an offset. -/
def lineBefore? (l : Layout) (offset : Nat) : Option Int :=
  if offset = 0 then none else l.lines[offset - 1]?

/-- What is fetched lies within the code. -/
theorem lt_size_of_fetch? {l : Layout} {offset : Nat} {f : Fetched}
    (h : l.fetch? offset = some f) : offset < l.code.size := by
  unfold fetch? at h
  rcases Nat.lt_or_ge offset l.code.size with hlt | hge
  · exact hlt
  · rw [Array.getElem?_eq_none hge] at h
    cases h

end Layout

namespace Engine

open Machine

variable {κ : Type}

/-- An engine that has not run anything yet. -/
def new (o : Options) (k : κ) : Engine κ where
  options := o
  console := k

/-- The engine put in order to run a chunk, if there is one. -/
def reset (e : Engine κ) (c? : Option Chunk) : Engine κ :=
  { e with chunk? := c?, next := 0, current := 0, stack := .empty }

/-- The engine about to execute the instruction at the next offset, which has so many bytes. -/
def enter (e : Engine κ) (size : Nat) : Engine κ :=
  { e with current := e.next, next := e.next + size }

/-- The engine with the top of its stack taken off. -/
def popped (e : Engine κ) : Engine κ :=
  match e.stack.pop? with
  | some (_, below) => { e with stack := below }
  | none => e

/-- What executing one instruction leads to. -/
inductive Tick (κ : Type) where
  /-- The run goes on. -/
  | go (e : Engine κ)
  /-- The run ends, and leaves the engine like this. -/
  | stop (result : Except Stop Value) (e : Engine κ)

/-- The end of a run by a trap, blamed on the line of the current instruction. -/
def trapped (l : Layout) (e : Engine κ) (t : Trap) : Tick κ :=
  .stop (.error (.fault ⟨t, l.lineAt e.current⟩)) e

variable [Sink κ]

/-- Executes what was fetched at the next offset. -/
def execute (c : Chunk) (l : Layout) (e : Engine κ) : Fetched → Tick κ
  | .unknown b => (e.enter 1).trapped l (.unknown b)
  | .truncated op => (e.enter (1 + op.width)).trapped l (.truncated op)
  | .whole i =>
    let e := e.enter i.size
    match perform e.options c.consts i e.stack e.console with
    | .error t => e.trapped l t
    | .ok (.next s k) => .go { e with stack := s, console := k }
    | .ok (.leap s) => .go { e with stack := s, next := e.next + i.operand }
    | .ok (.done v) => .stop (.ok v) e.popped
    | .ok (.refused k reason) => .stop (.error (.refused reason)) { e.popped with console := k }

/-- An engine that goes on has moved on. -/
theorem next_lt_of_execute {c : Chunk} {l : Layout} {e e' : Engine κ} {f : Fetched}
    (h : e.execute c l f = .go e') : e.next < e'.next := by
  cases f with
  | unknown b => cases h
  | truncated op => cases h
  | whole i =>
    simp only [execute, enter] at h
    split at h
    · cases h
    · cases h
      exact Nat.lt_add_of_pos_right (Nat.succ_pos _)
    · cases h
      exact Nat.lt_of_lt_of_le (Nat.lt_add_of_pos_right (Nat.succ_pos _)) (Nat.le_add_right _ _)
    · cases h
    · cases h

/-- How a run ended: the result, the log with its newest entry first, and the engine as it was
left. -/
structure Ended (κ : Type) where
  result : Except Stop Value
  log : List Log.Entry
  engine : Engine κ

/-- Executes instructions from the next offset on, until the run ends. -/
def loop (c : Chunk) (l : Layout) (e : Engine κ) (log : List Log.Entry) : Ended κ :=
  match _hfetch : l.fetch? e.next with
  | none => ⟨.error (.fault ⟨.pastEnd, c.lastLine⟩), log, e⟩
  | some f =>
    let log :=
      traced e.options c.consts e.next (l.lineBefore? e.next) (l.lineAt e.next) f e.stack log
    match _hgo : e.execute c l f with
    | .go e => loop c l e log
    | .stop result e => ⟨result, log, e⟩
termination_by l.code.size - e.next
decreasing_by
  have hlt := Layout.lt_size_of_fetch? _hfetch
  have hnext := next_lt_of_execute _hgo
  omega

/-- Runs a chunk, if there is one. Afterwards the engine holds it no longer. -/
def run (e : Engine κ) (c? : Option Chunk) : Ended κ :=
  let e := e.reset c?
  match c? with
  | none => ⟨.error (.fault ⟨.noChunk, 0⟩), [], e⟩
  | some c =>
    let r := e.loop c (.ofChunk c) []
    { r with engine := { r.engine with chunk? := none } }

end Engine

end Lox
