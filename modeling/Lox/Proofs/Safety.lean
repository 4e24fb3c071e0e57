import Lox.Proofs.Indexed

/-!
# Every run is safe

A chunk that was only written to may hold any bytes, and a run of it goes wherever they lead: into
operands, to the end, past constants that are not there. `run_safe` says that it still does no harm.

* Storage: the machine by indices, which breaks down on any read out of range and on any
  instruction after as many as there are bytes, does not break down, and comes to the same.
* The stack: its height stays within the limit (`height_le_of_reachable`). The invariant is on
  states between instructions, which `Performed` carries over each of them.
* Blame: a fault lies on the line of the instruction that was executed when it happened, and only
  instructions that push and take nothing meet a full stack.
* The trace is only looked at: how a run ends does not depend on it.
-/

namespace Lox

namespace Chunk

/-- A chunk made by writing code and adding constants. -/
inductive Built : Chunk → Prop where
  | empty : Built .empty
  | write {c : Chunk} (bytes : Bytes) (line : Int) : Built c → Built (c.write bytes line)
  | addConst {c : Chunk} (v : Value) : Built c → Built (c.addConst v)

/-- Every byte of a chunk that was built has a line. -/
theorem Built.length_lines {c : Chunk} (h : c.Built) : c.lines.length = c.code.length := by
  induction h with
  | empty => rfl
  | write bytes line _ ih => exact length_lines_write ih bytes line
  | addConst v _ ih => exact ih

end Chunk

namespace Machine

variable {κ : Type} [Sink κ] {o : Options} {c : Chunk} {k : κ} {s t : State κ}

/-! ## The height of the stack -/

/-- A turn keeps the height within the limit. -/
theorem height_le_of_go (h : turn o c s = .go t) (hs : (s.stack.height : Int) ≤ max o.limit 0) :
    (t.stack.height : Int) ≤ max o.limit 0 := by
  obtain ⟨i, -, hnext⟩ := turn_eq_go h
  have hperformed := performed o c.consts i s.stack s.console
  rcases hnext with ⟨hperform, -⟩ | ⟨hperform, -, -⟩ <;> rw [hperform] at hperformed
  · cases hperformed with
    | next _ _ hneeds hheight hlimit =>
      by_cases hzero : i.op.needs = 0
      · have := hlimit hzero
        omega
      · have hleaves : i.op.leaves ≤ 1 := by cases i.op <;> decide
        omega
  · generalize t.stack = stack at hperformed ⊢
    cases hperformed with
    | leap _ _ => exact hs

/-- The stack never holds more values than the limit allows. -/
theorem height_le_of_reachable (h : Reachable o c k s) :
    (s.stack.height : Int) ≤ max o.limit 0 := by
  induction h with
  | start =>
    have hzero : (State.start k).stack.height = 0 := rfl
    omega
  | turn _ hturn ih => exact height_le_of_go hturn ih

/-! ## Who is to blame -/

/-- The instructions that push a value and take none. -/
def pushes : List Opcode :=
  [.const, .pushNil, .pushTrue, .pushFalse]

/-- The instructions that take no operand and leave one. -/
theorem mem_pushes_iff {op : Opcode} : op ∈ pushes ↔ op.needs = 0 ∧ op.leaves = 1 := by
  cases op <;> decide

/-- A full stack is met by an instruction that takes nothing: one that does makes room first. -/
theorem opcode_of_overflow (hs : Reachable o c k s) {e : RuntimeError} {k' : κ}
    (h : turn o c s = .stop (.error (.fault e)) k') (he : e.trap.fault = .stackOverflow) :
    ∃ i, c.fetchAt? s.offset = some (.whole i) ∧ i.op ∈ pushes := by
  rcases turn_eq_fault h with ⟨-, rfl⟩ | ⟨-, ⟨b, -, hb⟩ | ⟨op, -, hop⟩ | ⟨i, hfetch, hperform⟩⟩
  · cases he
  · rw [hb] at he
    cases he
  · rw [hop] at he
    cases he
  · refine ⟨i, hfetch, mem_pushes_iff.mpr ?_⟩
    have hperformed := performed o c.consts i s.stack s.console
    rw [hperform] at hperformed
    generalize e.trap = trap at he hperformed
    cases hperformed with
    | underflow => cases he
    | constant => cases he
    | unsuited _ _ _ hfault =>
      rw [he] at hfault
      rcases hfault with hfault | hfault <;> cases hfault
    | overflow hneeds hleaves hlimit =>
      have hheight := height_le_of_reachable hs
      exact ⟨by omega, hleaves⟩

/-- A fault other than at the end is met at a byte of the code and carries its line. -/
theorem line_of_fault (hlines : c.lines.length = c.code.length) {e : RuntimeError} {k' : κ}
    (h : turn o c s = .stop (.error (.fault e)) k') (he : e.trap ≠ .pastEnd) :
    c.lines[s.offset]? = some e.line := by
  have hlt : s.offset < c.size ∧ e.line = c.lineOf s.offset := by
    rcases turn_eq_fault h with ⟨-, rfl⟩ | ⟨hline, ⟨b, hf, -⟩ | ⟨op, hf, -⟩ | ⟨i, hf, -⟩⟩
    · exact absurd rfl he
    all_goals exact ⟨Chunk.lt_size_of_fetchAt? hf, hline⟩
  have hsize : s.offset < c.code.length := hlt.1
  rw [hlt.2]
  exact Chunk.lineOf_eq (by omega)

/-- A run that goes past the end is blamed on the last line. -/
theorem line_of_pastEnd {e : RuntimeError} {k' : κ}
    (h : turn o c s = .stop (.error (.fault e)) k') (he : e.trap = .pastEnd) :
    e.line = c.lines.getLast?.getD 0 := by
  rcases turn_eq_fault h with ⟨-, rfl⟩ | ⟨-, ⟨b, -, hb⟩ | ⟨op, -, hop⟩ | ⟨i, -, hperform⟩⟩
  · rfl
  · rw [hb] at he
    cases he
  · rw [hop] at he
    cases he
  · have hperformed := performed o c.consts i s.stack s.console
    rw [hperform, he] at hperformed
    cases hperformed with
    | unsuited _ _ _ hfault => rcases hfault with hfault | hfault <;> cases hfault

/-! ## Tracing -/

/-- Tracing changes nothing in a turn. -/
theorem turn_trace (b : Bool) (s : State κ) : turn { o with trace := b } c s = turn o c s := rfl

/-- How a run ends does not depend on whether it is traced. -/
theorem ending_trace (b : Bool) (s : State κ) :
    ending { o with trace := b } c s = ending o c s := by
  revert s
  refine turn_induction o c fun s ih => ?_
  rcases hturn : turn o c s with t | ⟨result, k'⟩
  · rw [ending_of_go hturn, ending_of_go ((turn_trace b s).trans hturn), ih t hturn]
  · rw [ending_of_stop hturn, ending_of_stop ((turn_trace b s).trans hturn)]

/-! ## Safety -/

/-- What it means that a run does no harm. -/
structure Safe (o : Options) (c : Chunk) (k : κ) : Prop where
  /-- By indices the run needs at most one instruction for each byte, and reads nothing that is not
  there: neither code, lines and constants nor operands, traced or not. -/
  in_range : Indexed.run o c c.size k = .ok (run o c k)
  /-- The stack is never higher than the limit. -/
  height_le : ∀ s, Reachable o c k s → (s.stack.height : Int) ≤ max o.limit 0
  /-- A fault is that of an instruction executed in the run, and carries the line of its first byte.
  A stack overflow comes from an instruction that only pushes. -/
  blamed : ∀ e, (run o c k).result = .error (.fault e) → e.trap ≠ .pastEnd →
    ∃ s, Reachable o c k s ∧ turn o c s = .stop (.error (.fault e)) (run o c k).console ∧
      c.lines[s.offset]? = some e.line ∧
      (e.trap.fault = .stackOverflow → ∃ i, c.fetchAt? s.offset = some (.whole i) ∧ i.op ∈ pushes)
  /-- To run past the end is blamed on the line of the last byte, or on zero if there is none. -/
  blamed_end : ∀ e, (run o c k).result = .error (.fault e) → e.trap = .pastEnd →
    e.line = c.lines.getLast?.getD 0
  /-- The result and the output do not depend on the trace. -/
  untraced : ∀ b, (run { o with trace := b } c k).result = (run o c k).result ∧
    (run { o with trace := b } c k).console = (run o c k).console

/-- Every run of a chunk that was built is safe, whatever its bytes, and ends. -/
theorem run_safe (h : c.Built) (o : Options) (k : κ) : Safe o c k where
  in_range := Indexed.run_eq h.length_lines k
  height_le _ hs := height_le_of_reachable hs
  blamed e he hend := by
    obtain ⟨s, hs, hturn⟩ := exists_last_turn o c k
    rw [he] at hturn
    exact ⟨s, hs, hturn, line_of_fault h.length_lines hturn hend, opcode_of_overflow hs hturn⟩
  blamed_end e he hend := by
    obtain ⟨s, -, hturn⟩ := exists_last_turn o c k
    rw [he] at hturn
    exact line_of_pastEnd hturn hend
  untraced b := Prod.mk.inj (ending_trace b (State.start k))

/-- A jump into the operand of an instruction, on a stack without room, is safe too. -/
theorem run_safe_of_wild_jump :
    (Chunk.empty.write [16, 0, 1, 1, 17, 0] 7).Built ∧
      Safe { limit := -1, trace := true } (Chunk.empty.write [16, 0, 1, 1, 17, 0] 7)
        ({} : Console) :=
  ⟨.write _ _ .empty, run_safe (.write _ _ .empty) _ _⟩

end Machine

end Lox
