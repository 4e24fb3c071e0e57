import Lox.Machine.Run
import Mathlib.Tactic.Common

/-!
# A run, one instruction at a time

`exec` is a single pass over the bytes of the code. Seen from outside a run is a sequence of
states: an offset, a stack and a sink. `turn` says what the instruction at a state's offset does,
and `resume_eq_turn` that `exec` does just that and goes on from the next state. Everything that is
proved about runs is proved about turns first.

* `turn_eq_go` and `turn_eq_fault` say once what an instruction can lead to.
* A turn that goes on moves the offset forward (`offset_lt_of_go`), so that facts about all states
  can be proved along the turns (`turn_induction`).
* `ending o c s` is the result and the sink with which a run ends from the state `s`.
* `Reachable o c k s` says that a run of `c` comes through the state `s`, and `exists_last_turn`
  that every run ends with the turn of some reachable state.
-/

namespace Lox

namespace Instr

/-- An operand is read only from as many bytes as it has. -/
theorem le_length_of_readOperand? {n k m : Nat} {bs : Bytes} (h : readOperand? n k bs = some m) :
    n ≤ bs.length := by
  induction n generalizing k bs with
  | zero => exact Nat.zero_le _
  | succ n ih =>
    cases bs with
    | nil => simp [readOperand?] at h
    | cons b rest =>
      rw [readOperand?] at h
      simpa using ih h

/-- An operand is missed only where there are too few bytes. -/
theorem length_lt_of_readOperand? {n k : Nat} {bs : Bytes} (h : readOperand? n k bs = none) :
    bs.length < n := by
  induction n generalizing k bs with
  | zero => simp [readOperand?] at h
  | succ n ih =>
    cases bs with
    | nil => simp
    | cons b rest =>
      rw [readOperand?] at h
      simpa using ih h

end Instr

/-- A whole instruction lies within the code it is fetched from. -/
theorem width_le_of_fetch {b : UInt8} {rest : Bytes} {i : Instr} (h : fetch b rest = .whole i) :
    i.op.width ≤ rest.length := by
  unfold fetch at h
  split at h
  · simp at h
  · split at h
    · simp at h
    · rename_i hk
      obtain rfl := Fetched.whole.inj h
      exact Instr.le_length_of_readOperand? hk

namespace Chunk

/-- What stands at an offset of the code, if that lies within it. -/
def fetchAt? (c : Chunk) (offset : Nat) : Option Fetched :=
  match c.code.drop offset with
  | [] => none
  | b :: rest => some (fetch b rest)

/-- The line of the byte at an offset, or zero where there is none. -/
def lineOf (c : Chunk) (offset : Nat) : Int :=
  (c.lines.drop offset).headD 0

/-- The line of the byte before an offset. -/
def lineBefore? (c : Chunk) (offset : Nat) : Option Int :=
  if offset = 0 then none else c.lines[offset - 1]?

/-- Nothing is fetched only at the end of the code. -/
theorem fetchAt?_eq_none_iff {c : Chunk} {offset : Nat} :
    c.fetchAt? offset = none ↔ c.size ≤ offset := by
  unfold fetchAt?
  split
  · rename_i h
    simpa [size] using List.drop_eq_nil_iff.mp h
  · rename_i h
    have hlt : offset < c.code.length := by
      by_contra hge
      rw [List.drop_eq_nil_of_le (Nat.le_of_not_lt hge)] at h
      cases h
    simp [size, hlt]

/-- What is fetched begins within the code. -/
theorem lt_size_of_fetchAt? {c : Chunk} {offset : Nat} {f : Fetched}
    (h : c.fetchAt? offset = some f) : offset < c.size := by
  by_contra hge
  rw [fetchAt?_eq_none_iff.mpr (Nat.le_of_not_lt hge)] at h
  cases h

/-- A whole instruction ends within the code. -/
theorem add_size_le_of_fetchAt? {c : Chunk} {offset : Nat} {i : Instr}
    (h : c.fetchAt? offset = some (.whole i)) : offset + i.size ≤ c.size := by
  have hlt := lt_size_of_fetchAt? h
  unfold fetchAt? at h
  split at h
  · cases h
  · rename_i b rest hdrop
    have hwidth := width_le_of_fetch (Option.some.inj h)
    have hlength := congrArg List.length hdrop
    simp only [List.length_drop, List.length_cons] at hlength
    simp only [Instr.size, size] at hlt ⊢
    omega

/-- Within the lines of a chunk the line of an offset is the one that stands there. -/
theorem lineOf_eq {c : Chunk} {offset : Nat} (h : offset < c.lines.length) :
    c.lines[offset]? = some (c.lineOf offset) := by
  rw [lineOf, List.drop_eq_getElem_cons h, List.getElem?_eq_getElem h]
  rfl

end Chunk

namespace Machine

/-- Where a run stands before an instruction. -/
structure State (κ : Type) where
  offset : Nat
  stack : Stack
  console : κ

/-- What the instruction at a state leads to. -/
inductive Turn (κ : Type) where
  /-- The run goes on from another state. -/
  | go (s : State κ)
  /-- The run ends. -/
  | stop (result : Except Stop Value) (console : κ)

variable {κ : Type}

/-- The state in which a run begins. -/
def State.start (k : κ) : State κ :=
  ⟨0, .empty, k⟩

/-- The end of a run by a trap, blamed on the line of the state's offset. -/
def State.trapped (c : Chunk) (s : State κ) (t : Trap) : Turn κ :=
  .stop (.error (.fault ⟨t, c.lineOf s.offset⟩)) s.console

/-- What becomes of a state when the instruction there has its effect. -/
def State.after (s : State κ) (i : Instr) : Effect κ → Turn κ
  | .next stack k => .go ⟨s.offset + i.size, stack, k⟩
  | .leap stack => .go ⟨s.offset + i.size + i.operand, stack, s.console⟩
  | .done v => .stop (.ok v) s.console
  | .refused k reason => .stop (.error (.refused reason)) k

variable [Sink κ]

/-- What the instruction at a state's offset does. -/
def turn (o : Options) (c : Chunk) (s : State κ) : Turn κ :=
  match c.fetchAt? s.offset with
  | none => .stop (.error (.fault ⟨.pastEnd, c.lastLine⟩)) s.console
  | some (.unknown b) => s.trapped c (.unknown b)
  | some (.truncated op) => s.trapped c (.truncated op)
  | some (.whole i) =>
    match perform o c.consts i s.stack s.console with
    | .error t => s.trapped c t
    | .ok e => s.after i e

/-- What the rest of a run comes to from a state, with the log so far. -/
def resume (o : Options) (c : Chunk) (s : State κ) (log : List Log.Entry) : Outcome κ :=
  exec o c 0 s.offset (c.lineBefore? s.offset) (c.code.drop s.offset) (c.lines.drop s.offset)
    s.stack s.console log

/-- The log after looking at the instruction at a state. -/
def logAt (o : Options) (c : Chunk) (s : State κ) (log : List Log.Entry) : List Log.Entry :=
  match c.fetchAt? s.offset with
  | none => log
  | some f =>
    traced o c.consts s.offset (c.lineBefore? s.offset) (c.lineOf s.offset) f s.stack log

/-! ## The single pass as a sequence of turns -/

/-- Skipped bytes only move the offset. -/
theorem exec_skip (o : Options) (c : Chunk) (skip offset : Nat) (s : Stack) (k : κ)
    (log : List Log.Entry) :
    exec o c skip offset (c.lineBefore? offset) (c.code.drop offset) (c.lines.drop offset) s k log =
      resume o c ⟨offset + skip, s, k⟩ log := by
  induction skip generalizing offset with
  | zero => rfl
  | succ skip ih =>
    rcases hcode : c.code.drop offset with _ | ⟨b, rest⟩
    · have hend : c.code.drop (offset + (skip + 1)) = [] := by
        rw [← List.drop_drop, hcode, List.drop_nil]
      simp only [resume, hend, exec]
    · have hrest : rest = c.code.drop (offset + 1) := by
        rw [← List.drop_drop, hcode, List.drop_one, List.tail_cons]
      have hline : (c.lines.drop offset).head? = c.lineBefore? (offset + 1) := by
        simp [Chunk.lineBefore?]
      rw [exec, hline, hrest, List.tail_drop, ih (offset + 1)]
      congr 2
      omega

/-- The bytes after an instruction's first one begin at the next offset. -/
theorem exec_next {o : Options} {c : Chunk} {offset : Nat} {b : UInt8} {rest : Bytes}
    (h : c.code.drop offset = b :: rest) (skip : Nat) (s : Stack) (k : κ) (log : List Log.Entry) :
    exec o c skip (offset + 1) (c.lines.drop offset).head? rest (c.lines.drop offset).tail s k log =
      resume o c ⟨offset + 1 + skip, s, k⟩ log := by
  have hrest : rest = c.code.drop (offset + 1) := by
    rw [← List.drop_drop, h, List.drop_one, List.tail_cons]
  have hline : (c.lines.drop offset).head? = c.lineBefore? (offset + 1) := by
    simp [Chunk.lineBefore?]
  rw [hline, hrest, List.tail_drop, exec_skip]

/-- A run does what the turns say, one after another. -/
theorem resume_eq_turn (o : Options) (c : Chunk) (s : State κ) (log : List Log.Entry) :
    resume o c s log =
      match turn o c s with
      | .go t => resume o c t (logAt o c s log)
      | .stop result k => ⟨result, k, logAt o c s log⟩ := by
  rcases hcode : c.code.drop s.offset with _ | ⟨b, rest⟩
  · have hfetch : c.fetchAt? s.offset = none := by rw [Chunk.fetchAt?, hcode]
    simp only [resume, hcode, exec, turn, logAt, hfetch]
  · have hfetch : c.fetchAt? s.offset = some (fetch b rest) := by rw [Chunk.fetchAt?, hcode]
    rw [resume, hcode, exec]
    simp only [turn, logAt, hfetch, exec_next hcode]
    cases fetch b rest with
    | unknown b => rfl
    | truncated op => rfl
    | whole i =>
      dsimp only
      rcases perform o c.consts i s.stack s.console with t | (_ | _ | _ | _)
      · rfl
      · simp only [State.after, Instr.size, Nat.add_comm, Nat.add_assoc]
        rfl
      · simp only [State.after, Instr.size, Nat.add_comm, Nat.add_left_comm, Nat.add_assoc]
        rfl
      · rfl
      · rfl

/-! ## What a turn can lead to -/

variable {o : Options} {c : Chunk} {s t : State κ}

/-- At a whole instruction a turn is what the instruction does. -/
theorem turn_of_fetchAt? {i : Instr} (h : c.fetchAt? s.offset = some (.whole i)) :
    turn o c s =
      match perform o c.consts i s.stack s.console with
      | .error t => s.trapped c t
      | .ok e => s.after i e := by
  rw [turn, h]

/-- A turn goes on only past a whole instruction: to the next one, or as far as a jump leaps. -/
theorem turn_eq_go (h : turn o c s = .go t) :
    ∃ i, c.fetchAt? s.offset = some (.whole i) ∧
      ((perform o c.consts i s.stack s.console = .ok (.next t.stack t.console) ∧
          t.offset = s.offset + i.size) ∨
        (perform o c.consts i s.stack s.console = .ok (.leap t.stack) ∧
          t.offset = s.offset + i.size + i.operand ∧ t.console = s.console)) := by
  unfold turn at h
  split at h
  · cases h
  · cases h
  · cases h
  · rename_i i hfetch
    refine ⟨i, hfetch, ?_⟩
    split at h
    · cases h
    · rename_i e hperform
      cases e with
      | next stack k =>
        obtain rfl := Turn.go.inj h
        exact .inl ⟨hperform, rfl⟩
      | leap stack =>
        obtain rfl := Turn.go.inj h
        exact .inr ⟨hperform, rfl, rfl⟩
      | done v => cases h
      | refused k reason => cases h

/-- A turn that ends in a fault ran past the end, or met a bad byte, or an instruction trapped. -/
theorem turn_eq_fault {e : RuntimeError} {k : κ} (h : turn o c s = .stop (.error (.fault e)) k) :
    (c.fetchAt? s.offset = none ∧ e = ⟨.pastEnd, c.lastLine⟩) ∨
      (e.line = c.lineOf s.offset ∧
        ((∃ b, c.fetchAt? s.offset = some (.unknown b) ∧ e.trap = .unknown b) ∨
          (∃ op, c.fetchAt? s.offset = some (.truncated op) ∧ e.trap = .truncated op) ∨
          ∃ i, c.fetchAt? s.offset = some (.whole i) ∧
            perform o c.consts i s.stack s.console = .error e.trap)) := by
  unfold turn at h
  split at h
  · rename_i hfetch
    cases h
    exact .inl ⟨hfetch, rfl⟩
  · rename_i b hfetch
    cases h
    exact .inr ⟨rfl, .inl ⟨b, hfetch, rfl⟩⟩
  · rename_i op hfetch
    cases h
    exact .inr ⟨rfl, .inr (.inl ⟨op, hfetch, rfl⟩)⟩
  · rename_i i hfetch
    split at h
    · rename_i trap hperform
      cases h
      exact .inr ⟨rfl, .inr (.inr ⟨i, hfetch, hperform⟩)⟩
    · rename_i effect hperform
      cases effect <;> cases h

/-- A turn that goes on moves past the instruction, which lies within the code. -/
theorem offset_lt_of_go (h : turn o c s = .go t) : s.offset < t.offset ∧ s.offset < c.size := by
  obtain ⟨i, hfetch, hnext⟩ := turn_eq_go h
  have hlt := Chunk.lt_size_of_fetchAt? hfetch
  have hpos : 0 < i.size := Nat.succ_pos _
  rcases hnext with ⟨-, ht⟩ | ⟨-, ht, -⟩ <;> exact ⟨by omega, hlt⟩

/-- What holds of a state whenever it holds of the state its turn goes on to, if any, holds of every
state: offsets grow, and no turn goes on from the end of the code. -/
theorem turn_induction (o : Options) (c : Chunk) {P : State κ → Prop}
    (hturn : ∀ s, (∀ t, turn o c s = .go t → P t) → P s) (s : State κ) : P s := by
  induction hn : c.size - s.offset using Nat.strongRecOn generalizing s with
  | _ n ih =>
    refine hturn s fun t ht => ?_
    have hlt := offset_lt_of_go ht
    exact ih _ (by omega) t rfl

/-! ## How a run ends -/

/-- The result and the sink with which a run ends, from a state. -/
def ending (o : Options) (c : Chunk) (s : State κ) : Except Stop Value × κ :=
  ((resume o c s []).result, (resume o c s []).console)

/-- The log does not matter to how a run ends. -/
theorem ending_eq_resume (o : Options) (c : Chunk) (s : State κ) (log : List Log.Entry) :
    ending o c s = ((resume o c s log).result, (resume o c s log).console) := by
  unfold ending
  suffices h : ∀ log log', (resume o c s log).result = (resume o c s log').result ∧
      (resume o c s log).console = (resume o c s log').console from
    Prod.ext (h [] log).1 (h [] log).2
  revert s
  refine turn_induction o c fun s ih => ?_
  intro log log'
  rw [resume_eq_turn o c s log, resume_eq_turn o c s log']
  rcases hturn : turn o c s with t | ⟨result, k⟩
  · exact ih t hturn _ _
  · exact ⟨rfl, rfl⟩

/-- A run ends as it does from the next state on. -/
theorem ending_of_go (h : turn o c s = .go t) : ending o c s = ending o c t := by
  have hresume := resume_eq_turn o c s []
  rw [h] at hresume
  rw [ending, hresume]
  exact (ending_eq_resume o c t _).symm

/-- A run that stops ends with what it stops with. -/
theorem ending_of_stop {result : Except Stop Value} {k : κ} (h : turn o c s = .stop result k) :
    ending o c s = (result, k) := by
  have hresume := resume_eq_turn o c s []
  rw [h] at hresume
  rw [ending, hresume]

/-- A run of a chunk ends as one from the first state does. -/
theorem run_ending (o : Options) (c : Chunk) (k : κ) :
    ((run o c k).result, (run o c k).console) = ending o c (State.start k) := rfl

/-! ## The states of a run -/

/-- A run of a chunk, begun with the sink `k`, comes through a state. -/
inductive Reachable (o : Options) (c : Chunk) (k : κ) : State κ → Prop where
  | start : Reachable o c k (State.start k)
  | turn {s t : State κ} : Reachable o c k s → turn o c s = .go t → Reachable o c k t

/-- Every run ends with the turn of some state it comes through. -/
theorem exists_last_turn (o : Options) (c : Chunk) (k : κ) :
    ∃ t, Reachable o c k t ∧ turn o c t = .stop (run o c k).result (run o c k).console := by
  suffices h : ∀ s, Reachable o c k s →
      ∃ t, Reachable o c k t ∧ turn o c t = .stop (ending o c s).1 (ending o c s).2 from
    h _ .start
  refine turn_induction o c fun s ih => ?_
  intro hs
  rcases hturn : turn o c s with t | ⟨result, k'⟩
  · rw [ending_of_go hturn]
    exact ih t hturn (hs.turn hturn)
  · rw [ending_of_stop hturn]
    exact ⟨s, hs, hturn⟩

end Machine

end Lox
