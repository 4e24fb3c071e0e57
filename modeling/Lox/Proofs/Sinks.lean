import Lox.Proofs.Steps

/-!
# Runs and their sinks

A run only ever writes to its sink. So whatever maps one kind of sink to another and respects
writing maps runs to runs: `Respects f` says that writing to `f k` does what writing to `k` does,
and `resume_map` that a run on `f k` is the run on `k` with `f` applied to the sink at the end. The
result and the log are the same.

The map that matters is `Transcript.after`. A transcript takes everything; put after what has been
written already, it is a console without a limit.
-/

namespace Lox

namespace Machine

variable {κ κ' : Type}

/-! ## Maps of sinks -/

/-- An effect with its sink mapped. -/
def Effect.map (f : κ → κ') : Effect κ → Effect κ'
  | .next stack k => .next stack (f k)
  | .leap stack => .leap stack
  | .done v => .done v
  | .refused k reason => .refused (f k) reason

/-- A state with its sink mapped. -/
def State.map (f : κ → κ') (s : State κ) : State κ' :=
  ⟨s.offset, s.stack, f s.console⟩

/-- A turn with its sink mapped. -/
def Turn.map (f : κ → κ') : Turn κ → Turn κ'
  | .go s => .go (s.map f)
  | .stop result k => .stop result (f k)

/-- An outcome with its sink mapped. -/
def Outcome.map (f : κ → κ') (r : Outcome κ) : Outcome κ' :=
  ⟨r.result, f r.console, r.log⟩

variable [Sink κ] [Sink κ']

/-- A map of sinks that respects writing. -/
def Respects (f : κ → κ') : Prop :=
  ∀ k bytes, Sink.write (f k) bytes = (f (Sink.write k bytes).1, (Sink.write k bytes).2)

variable {f : κ → κ'}

/-! ## One instruction -/

omit [Sink κ] [Sink κ'] in

/-- A push does the same on either sink. -/
theorem pushing_map (f : κ → κ') (o : Options) (s : Stack) (k : κ) (v : Value) :
    pushing o s (f k) v = (pushing o s k v).map (Effect.map f) := by
  unfold pushing
  cases push o s v <;> rfl

omit [Sink κ] [Sink κ'] in

/-- To take an operand does the same on either sink, if what is done with the operand does. -/
theorem taking_map {op : Opcode} {s : Stack} {g : Value → Stack → Except Trap (Effect κ)}
    {g' : Value → Stack → Except Trap (Effect κ')}
    (h : ∀ v below, g' v below = (g v below).map (Effect.map f)) :
    taking op s g' = (taking op s g).map (Effect.map f) := by
  unfold taking
  split
  · rfl
  · exact h _ _

omit [Sink κ] [Sink κ'] in

/-- To combine two operands does the same on either sink. -/
theorem combining_map (f : κ → κ') (o : Options) (op : Opcode) (s : Stack) (k : κ)
    (g : Value → Value → Except Trap Value) :
    combining o op s (f k) g = (combining o op s k g).map (Effect.map f) := by
  unfold combining
  split
  · rfl
  · rename_i left right below _
    cases g left right with
    | error t => rfl
    | ok v => exact pushing_map f o below k v

/-- An instruction does the same on either sink. -/
theorem perform_map (hf : Respects f) (o : Options) (consts : List Value) (i : Instr) (s : Stack)
    (k : κ) : perform o consts i s (f k) = (perform o consts i s k).map (Effect.map f) := by
  unfold perform
  split
  · exact taking_map fun _ _ => rfl
  · split
    · rfl
    · exact pushing_map ..
  · exact pushing_map ..
  · exact pushing_map ..
  · exact pushing_map ..
  · exact taking_map fun _ _ => rfl
  · exact combining_map ..
  · exact combining_map ..
  · exact combining_map ..
  · exact taking_map fun _ _ => pushing_map ..
  · refine taking_map fun v below => ?_
    split
    · rfl
    · exact pushing_map ..
  · exact combining_map ..
  · exact combining_map ..
  · exact combining_map ..
  · exact combining_map ..
  · refine taking_map fun v below => ?_
    rw [hf]
    rcases Sink.write k (v.printed ++ [0x0A]) with ⟨k', _ | reason⟩ <;> rfl
  · rfl
  · refine taking_map fun v below => ?_
    split <;> rfl

/-! ## Whole runs -/

/-- A turn does the same on either sink, if writes are respected. -/
theorem turn_map (hf : Respects f) (o : Options) (c : Chunk) (s : State κ) :
    turn o c (s.map f) = (turn o c s).map f := by
  have hperform : ∀ i, perform o c.consts i (s.map f).stack (s.map f).console =
      (perform o c.consts i s.stack s.console).map (Effect.map f) :=
    fun i => perform_map hf o c.consts i s.stack s.console
  have hoffset : (s.map f).offset = s.offset := rfl
  unfold turn
  rw [hoffset]
  rcases c.fetchAt? s.offset with _ | (i | _ | _)
  · rfl
  · simp only [hperform]
    rcases perform o c.consts i s.stack s.console with t | (_ | _ | _ | _) <;> rfl
  · rfl
  · rfl

/-- The rest of a run is the same on either sink. -/
theorem resume_map (hf : Respects f) (o : Options) (c : Chunk) (s : State κ)
    (log : List Log.Entry) : resume o c (s.map f) log = (resume o c s log).map f := by
  revert s log
  refine turn_induction o c fun s ih => ?_
  intro log
  have hlog : logAt o c (s.map f) log = logAt o c s log := rfl
  rw [resume_eq_turn o c (s.map f) log, resume_eq_turn o c s log, turn_map hf, hlog]
  rcases hturn : turn o c s with t | ⟨result, k⟩
  · exact ih t hturn _
  · rfl

/-- A run is the same on either sink. -/
theorem run_map (hf : Respects f) (o : Options) (c : Chunk) (k : κ) :
    run o c (f k) = (run o c k).map f :=
  resume_map hf o c (State.start k) []

end Machine

/-! ## Transcripts -/

/-- All that has been written, last first. -/
structure Transcript where
  written : List Bytes := []

namespace Transcript

/-- A transcript takes everything. -/
instance : Sink Transcript where
  write t bytes := (⟨bytes :: t.written⟩, none)

/-- The console, without a limit, on which this was written after something else. -/
def after (before : List Bytes) (t : Transcript) : Console where
  room := none
  written := t.written ++ before

/-- Writes are respected where other writes come before them. -/
theorem respects_after (before : List Bytes) : Machine.Respects (after before) :=
  fun _ _ => rfl

end Transcript

end Lox
