import Lox.Proofs.Effects
import Lox.Proofs.Reloading
import Lox.Proofs.Sinks
import Mathlib.Logic.Relation

/-!
# Options that only cut runs short

A lower limit of the stack, or strict division, can end a run early and does nothing else to it.
`Curbs P strict lax` says so of single instructions: under the options `strict` each one does what
it does under `lax`, or ends the run by a trap of a kind that `P` describes. From there it follows
for whole runs (`run_of_curbs`). Either the two runs are the same, log and all, or they come through
the same states up to one where the first of them is trapped (`AgreeUpTo`), and what it has written
by then is how the output of the other one begins.

`run_limited` is the case of two limits, and `run_dividing` that of strict and of lax division.

For a sink of any kind, what a run writes to it is what it leaves on a tape beside it (`Taped`). The
tape is never read, so a run on a sink with a tape is the run on the sink (`respects_sink`), and one
that begins on a used tape only writes on (`respects_after`). A console holds in the end just what
the tape says was written to it (`output_console`).
-/

namespace Lox

/-! ## What a run writes -/

/-- A sink, and beside it a tape with the bytes that it took, in order. -/
structure Taped (κ : Type) where
  sink : κ
  tape : Bytes

namespace Taped

variable {κ : Type}

/-- The sink with something on the tape before all the rest. -/
def after (before : Bytes) (t : Taped κ) : Taped κ :=
  ⟨t.sink, before ++ t.tape⟩

variable [Sink κ]

/-- A write that fails leaves nothing on the tape. -/
instance : Sink (Taped κ) where
  write t bytes :=
    match Sink.write t.sink bytes with
    | (k, none) => (⟨k, t.tape ++ bytes⟩, none)
    | (k, some reason) => (⟨k, t.tape⟩, some reason)

/-- Beside a tape, a sink takes what it takes without one. -/
theorem respects_sink : Machine.Respects (sink : Taped κ → κ) := by
  intro t bytes
  show _ = ((Sink.write t bytes).1.sink, (Sink.write t bytes).2)
  simp only [Sink.write]
  rcases Sink.write t.sink bytes with ⟨k, _ | reason⟩ <;> rfl

/-- What is on the tape before does not matter to the sink. -/
theorem respects_after (before : Bytes) :
    Machine.Respects (after before : Taped κ → Taped κ) := by
  intro t bytes
  simp only [after, Sink.write]
  rcases Sink.write t.sink bytes with ⟨k, _ | reason⟩
  · simp
  · rfl

end Taped

namespace Console

/-- A console that takes some bytes has them after those before. -/
theorem output_of_write? {k k' : Console} {bytes : Bytes} (h : k.write? bytes = some k') :
    k'.output = k.output ++ bytes := by
  unfold write? at h
  split at h
  · obtain rfl := Option.some.inj h
    simp [output]
  · simp at h
  · obtain rfl := Option.some.inj h
    simp [output]

/-- A console is a tape of its own. -/
theorem respects_output : Machine.Respects fun k : Console => (⟨k, k.output⟩ : Taped Console) := by
  intro k bytes
  simp only [Sink.write]
  cases hwrite : k.write? bytes with
  | none => rfl
  | some k' => simp only [output_of_write? hwrite]

end Console

namespace Machine

variable {κ κ' : Type} [Sink κ] [Sink κ']

/-- What a run writes to its sink. -/
def output (o : Options) (c : Chunk) (k : κ) : Bytes :=
  (run o c (⟨k, []⟩ : Taped κ)).console.tape

/-- A run writes to a sink what it writes to one with a tape beside it. -/
theorem run_sink (o : Options) (c : Chunk) (k : κ) :
    run o c k = (run o c (⟨k, []⟩ : Taped κ)).map Taped.sink :=
  run_map Taped.respects_sink o c ⟨k, []⟩

/-- A console holds what was written to it. -/
theorem output_console (o : Options) (c : Chunk) (k : Console) :
    (run o c k).console.output = k.output ++ output o c k := by
  have hconsole := run_map Console.respects_output o c k
  have hafter := run_map (Taped.respects_after k.output) o c (⟨k, []⟩ : Taped Console)
  rw [Taped.after, List.append_nil, hconsole] at hafter
  exact congrArg (fun r => r.console.tape) hafter

/-- A run only writes on. -/
theorem prefix_ending (o : Options) (c : Chunk) (s : State (Taped κ)) :
    s.console.tape <+: (ending o c s).2.tape := by
  have hafter := resume_map (Taped.respects_after s.console.tape) o c
    ⟨s.offset, s.stack, ⟨s.console.sink, []⟩⟩ []
  simp only [State.map, Taped.after, List.append_nil] at hafter
  unfold ending
  rw [hafter]
  exact List.prefix_append _ _

/-! ## The states of a run -/

variable {o : Options} {c : Chunk} {k : κ} {s t u : State κ}

/-- A run on a sink is also one on what the sink is seen as. -/
theorem Reachable.map {f : κ → κ'} (hf : Respects f) (h : Reachable o c k s) :
    Reachable o c (f k) (s.map f) := by
  induction h with
  | start => exact .start
  | turn _ hturn ih =>
    apply ih.turn
    rw [turn_map hf, hturn]
    rfl

/-- From any of its states a run ends as it does from the start. -/
theorem ending_of_reachable (h : Reachable o c k s) :
    ending o c (State.start k) = ending o c s := by
  induction h with
  | start => rfl
  | turn _ hturn ih => rw [ih, ending_of_go hturn]

/-- The states of a run follow from the first one turn by turn. -/
theorem reflTransGen_of_reachable (h : Reachable o c k s) :
    Relation.ReflTransGen (fun s t => turn o c s = .go t) (State.start k) s := by
  induction h with
  | start => exact .refl
  | turn _ hturn ih => exact ih.tail hturn

/-- A run never goes back. -/
theorem offset_le_of_reflTransGen
    (h : Relation.ReflTransGen (fun s t => turn o c s = .go t) s t) : s.offset ≤ t.offset := by
  induction h with
  | refl => exact Nat.le_refl _
  | tail _ hturn ih => exact Nat.le_trans ih (Nat.le_of_lt (offset_lt_of_go hturn).1)

/-- No state of a run lies beyond the one where it ends. -/
theorem offset_le_of_stop {result : Except Stop Value} {k' : κ} (hs : Reachable o c k s)
    (hstop : turn o c s = .stop result k') (hu : Reachable o c k u) : u.offset ≤ s.offset := by
  have hunique : Relator.RightUnique fun s t : State κ => turn o c s = .go t := by
    intro s t t' ht ht'
    exact Turn.go.inj (ht.symm.trans ht')
  have htotal := Relation.ReflTransGen.total_of_right_unique hunique
    (reflTransGen_of_reachable hu) (reflTransGen_of_reachable hs)
  rcases htotal with hus | hsu
  · exact offset_le_of_reflTransGen hus
  · rcases hsu.cases_head with rfl | ⟨t, hgo, -⟩
    · exact Nat.le_refl _
    · rw [hstop] at hgo
      cases hgo

/-! ## One instruction under two sets of options -/

/-- Under the options `strict` an instruction does what it does under `lax`, or it is trapped as `P`
says. The trace is the same. -/
structure Curbs (P : Instr → Stack → Trap → Prop) (strict lax : Options) : Prop where
  trace : strict.trace = lax.trace
  perform : ∀ (κ : Type) [Sink κ] (consts : List Value) (i : Instr) (s : Stack) (k : κ),
    perform strict consts i s k = perform lax consts i s k ∨
      ∃ t, P i s t ∧ perform strict consts i s k = .error t

variable {P : Instr → Stack → Trap → Prop} {strict lax : Options}

/-- A state where the instruction is trapped as `P` says. -/
def TrappedBy (P : Instr → Stack → Trap → Prop) (o : Options) (c : Chunk) (s : State κ) : Prop :=
  ∃ i t, c.fetchAt? s.offset = some (.whole i) ∧ P i s.stack t ∧ turn o c s = s.trapped c t

/-- A turn under the stricter options is the turn under the others, or it is trapped. -/
theorem Curbs.turn (h : Curbs P strict lax) (c : Chunk) (s : State κ) :
    turn strict c s = turn lax c s ∨ TrappedBy P strict c s := by
  unfold TrappedBy Machine.turn
  rcases hfetch : c.fetchAt? s.offset with _ | (i | op | b)
  · exact .inl rfl
  · rcases h.perform κ c.consts i s.stack s.console with heq | ⟨t, ht, heq⟩
    · left
      simp only [heq]
    · right
      refine ⟨i, t, rfl, ht, ?_⟩
      simp only [heq]
  · exact .inl rfl
  · exact .inl rfl

omit [Sink κ] in

/-- The trace is the same under both options. -/
theorem Curbs.logAt (h : Curbs P strict lax) (c : Chunk) (s : State κ) (log : List Log.Entry) :
    logAt strict c s log = logAt lax c s log := by
  unfold Machine.logAt traced
  rw [h.trace]

/-! ## Whole runs under two sets of options -/

/-- Two runs of a chunk come through the same states up to the state `s`, which is the last one of
the first run. -/
structure AgreeUpTo (strict lax : Options) (c : Chunk) (k : κ) (s : State κ) : Prop where
  reached : Reachable strict c k s
  states : ∀ u, Reachable strict c k u ↔ Reachable lax c k u ∧ u.offset ≤ s.offset

/-- A state that follows under the stricter options follows under the others. -/
theorem Curbs.go (h : Curbs P strict lax) (hgo : Machine.turn strict c s = .go t) :
    Machine.turn lax c s = .go t := by
  rcases h.turn c s with heq | ⟨i, trap, -, -, htrap⟩
  · rw [← heq, hgo]
  · rw [hgo] at htrap
    cases htrap

/-- The states of a run under the stricter options are states of the run under the others. -/
theorem Curbs.reachable (h : Curbs P strict lax) (hs : Reachable strict c k s) :
    Reachable lax c k s := by
  induction hs with
  | start => exact .start
  | turn _ hturn ih => exact ih.turn (h.go hturn)

/-- Up to the state where the stricter run is trapped the two runs come through the same states. -/
theorem Curbs.agreeUpTo (h : Curbs P strict lax) (hs : Reachable strict c k s)
    (htrapped : TrappedBy P strict c s) : AgreeUpTo strict lax c k s := by
  obtain ⟨i, t, -, -, hstop⟩ := htrapped
  refine ⟨hs, fun u => ⟨fun hu => ⟨h.reachable hu, offset_le_of_stop hs hstop hu⟩, ?_⟩⟩
  rintro ⟨hu, hle⟩
  -- along the second run: a state before `s` is not where the first run is trapped
  induction hu with
  | start => exact .start
  | @turn v w _ hturn ih =>
    have hlt := (offset_lt_of_go hturn).1
    have hv := ih (by omega)
    rcases h.turn c v with heq | ⟨_, _, -, -, hstop'⟩
    · exact hv.turn (heq.trans hturn)
    · have hsv := offset_le_of_stop hv hstop' hs
      omega

/-- The rest of a run is the same under both options, or comes to a state where it is trapped. -/
theorem Curbs.resume (h : Curbs P strict lax) (s : State κ) (hs : Reachable strict c k s) :
    (∀ log, resume strict c s log = resume lax c s log) ∨
      ∃ u, Reachable strict c k u ∧ TrappedBy P strict c u := by
  revert hs
  revert s
  refine turn_induction strict c fun s ih hs => ?_
  rcases h.turn c s with heq | htrapped
  · rcases hturn : Machine.turn strict c s with t | ⟨result, k'⟩
    · rcases ih t hturn (hs.turn hturn) with hsame | htrapped
      · left
        intro log
        rw [resume_eq_turn strict, resume_eq_turn lax, ← heq, hturn, h.logAt]
        exact hsame _
      · exact .inr htrapped
    · left
      intro log
      rw [resume_eq_turn strict, resume_eq_turn lax, ← heq, hturn, h.logAt]
  · exact .inr ⟨s, hs, htrapped⟩

/-- A trap is the same on what the sink is seen as. -/
theorem TrappedBy.map {f : κ → κ'} (hf : Respects f) (h : TrappedBy P o c s) :
    TrappedBy P o c (s.map f) := by
  obtain ⟨i, t, hfetch, ht, hturn⟩ := h
  refine ⟨i, t, hfetch, ht, ?_⟩
  rw [turn_map hf, hturn]
  rfl

/-- What stricter options can do to a run: nothing at all, or they end it by a trap at some state.
Up to there it goes as the other run does, and what it has written is how the output of the other
begins. -/
theorem run_of_curbs (h : Curbs P strict lax) (c : Chunk) (k : κ) :
    (run strict c k = run lax c k ∧ output strict c k = output lax c k) ∨
      ∃ s i t, c.fetchAt? s.offset = some (.whole i) ∧ P i s.stack t ∧
        (run strict c k).result = .error (.fault ⟨t, c.lineOf s.offset⟩) ∧
        AgreeUpTo strict lax c k s ∧ output strict c k <+: output lax c k := by
  rcases h.resume (State.start (⟨k, []⟩ : Taped κ)) .start with hsame | ⟨s, hs, htrapped⟩
  · have hrun : run strict c (⟨k, []⟩ : Taped κ) = run lax c ⟨k, []⟩ := hsame []
    left
    rw [run_sink strict, run_sink lax, hrun]
    exact ⟨rfl, congrArg (fun r => r.console.tape) hrun⟩
  · right
    have hreached := hs.map Taped.respects_sink
    have htrapped' := htrapped.map Taped.respects_sink
    have hagree := h.agreeUpTo hreached htrapped'
    obtain ⟨i, t, hfetch, ht, hstop⟩ := htrapped'
    have hresult : ending strict c (State.start k) = _ :=
      (ending_of_reachable hreached).trans (ending_of_stop hstop)
    refine ⟨s.map Taped.sink, i, t, hfetch, ht, congrArg Prod.fst hresult, hagree, ?_⟩
    obtain ⟨_, _, -, -, hstop⟩ := htrapped
    have hstrict : output strict c k = s.console.tape := by
      have hending := (ending_of_reachable hs).trans (ending_of_stop hstop)
      exact congrArg (fun r => r.2.tape) hending
    have hlax : output lax c k = (ending lax c s).2.tape :=
      congrArg (fun r => r.2.tape) (ending_of_reachable (h.reachable hs))
    rw [hstrict, hlax]
    exact prefix_ending lax c s

/-- A run ends in a fault of some class. -/
def Outcome.EndsIn (r : Outcome κ) (f : Fault) : Prop :=
  ∃ e, r.result = .error (.fault e) ∧ e.trap.fault = f

/-! ## The limit of the stack -/

/-- The options with another limit of the stack. -/
def Options.limited (o : Options) (n : Int) : Options :=
  { o with limit := n }

section Limit

variable {n m : Int}

omit [Sink κ] in

/-- Under a lower limit a push does the same or overflows. -/
theorem pushing_limited (h : n ≤ m) (o : Options) (s : Stack) (k : κ) (v : Value) :
    pushing (o.limited n) s k v = pushing (o.limited m) s k v ∨
      pushing (o.limited n) s k v = .error (.overflow n) := by
  by_cases hfull : n ≤ s.height
  · right
    exact pushing_of_le hfull v
  · left
    have hlt : (s.height : Int) < n := by omega
    have hlt' : (s.height : Int) < m := by omega
    rw [pushing_of_lt hlt, pushing_of_lt hlt']

omit [Sink κ] in

/-- Taking an operand does the same or overflows if what is done with the operand does. -/
theorem taking_limited {op : Opcode} {s : Stack} {f g : Value → Stack → Except Trap (Effect κ)}
    (h : ∀ v below, f v below = g v below ∨ f v below = .error (.overflow n)) :
    taking op s f = taking op s g ∨ taking op s f = .error (.overflow n) := by
  unfold taking
  split
  · exact .inl rfl
  · exact h _ _

omit [Sink κ] in

/-- Under a lower limit combining two operands does the same or overflows. -/
theorem combining_limited (h : n ≤ m) (o : Options) (op : Opcode) (s : Stack) (k : κ)
    (f : Value → Value → Except Trap Value) :
    combining (o.limited n) op s k f = combining (o.limited m) op s k f ∨
      combining (o.limited n) op s k f = .error (.overflow n) := by
  unfold combining
  split
  · exact .inl rfl
  · rename_i left right below _
    cases f left right with
    | error t => exact .inl rfl
    | ok v => exact pushing_limited h o below k v

/-- A lower limit can only make an instruction overflow. The operands are off the stack before the
result is pushed, so only the height below them is compared with the limit. -/
theorem perform_limited (h : n ≤ m) (o : Options) (consts : List Value) (i : Instr) (s : Stack)
    (k : κ) :
    perform (o.limited n) consts i s k = perform (o.limited m) consts i s k ∨
      perform (o.limited n) consts i s k = .error (.overflow n) := by
  obtain ⟨op, operand⟩ := i
  unfold perform
  cases op
  case ret | pop | print | jumpIfFalse => exact .inl rfl
  case jump => exact .inl rfl
  case const =>
    dsimp only
    split
    · exact .inl rfl
    · exact pushing_limited h o s k _
  case pushNil | pushTrue | pushFalse => exact pushing_limited h o s k _
  case not =>
    apply taking_limited
    intro v below
    exact pushing_limited h o below k _
  case negate =>
    apply taking_limited
    intro v below
    split
    · exact .inl rfl
    · exact pushing_limited h o below k _
  -- two operands are combined, and how they are does not depend on the limit
  case equal | greater | less | add | sub | mul | div => exact combining_limited h o _ s k _

/-- A lower limit only adds overflows. -/
theorem curbs_limited (h : n ≤ m) (o : Options) :
    Curbs (fun _ _ t => t.fault = .stackOverflow) (o.limited n) (o.limited m) where
  trace := rfl
  perform κ _ consts i s k := by
    rcases perform_limited h o consts i s k with heq | heq
    · exact .inl heq
    · exact .inr ⟨.overflow n, rfl, heq⟩

/-- A limit of the stack only cuts runs short. A run that does not overflow under the lower of two
limits is the same under the higher one, and one that does has written a part, from the beginning,
of what it writes under the higher one. -/
theorem run_limited (h : n ≤ m) (o : Options) (c : Chunk) (k : κ) :
    (¬(run (o.limited n) c k).EndsIn .stackOverflow →
      run (o.limited n) c k = run (o.limited m) c k ∧
        output (o.limited n) c k = output (o.limited m) c k) ∧
    ((run (o.limited n) c k).EndsIn .stackOverflow →
      output (o.limited n) c k <+: output (o.limited m) c k) := by
  rcases run_of_curbs (curbs_limited h o) c k with hsame | ⟨s, i, t, -, ht, hresult, -, hbegins⟩
  · exact ⟨fun _ => hsame, fun _ => hsame.2 ▸ List.prefix_rfl⟩
  · exact ⟨fun hends => absurd ⟨_, hresult, ht⟩ hends, fun _ => hbegins⟩

/-- Code that prints, and later needs room for two values. -/
def twoDeep : Chunk :=
  Chunk.empty.write [2, 15, 2, 2, 15, 0] 1

/-- With room for one value only, that code ends early, after the first of the two lines that it
prints otherwise. -/
theorem run_limited_twoDeep : (1 : Int) ≤ 2 ∧
    (run (({} : Options).limited 1) twoDeep ({} : Console)).EndsIn .stackOverflow ∧
    output (({} : Options).limited 1) twoDeep ({} : Console) = [110, 105, 108, 10] ∧
    output (({} : Options).limited 1) twoDeep ({} : Console) <+:
      output (({} : Options).limited 2) twoDeep ({} : Console) ∧
    output (({} : Options).limited 2) twoDeep ({} : Console) =
      [110, 105, 108, 10, 110, 105, 108, 10] := by
  have hends : (run (({} : Options).limited 1) twoDeep ({} : Console)).EndsIn .stackOverflow :=
    ⟨_, rfl, rfl⟩
  have hle : (1 : Int) ≤ 2 := by decide
  have hbegins := (run_limited hle {} twoDeep ({} : Console)).2 hends
  exact ⟨hle, hends, by decide +kernel, hbegins, by decide +kernel⟩

end Limit

/-! ## Strict division -/

/-- The options with division strict or not. -/
def Options.dividing (o : Options) (strict : Bool) : Options :=
  { o with strictDivision := strict }

/-- A division of a number by a number that equals zero, whatever its sign. -/
def DividesByZero (i : Instr) (s : Stack) : Prop :=
  i.op = .div ∧ ∃ (below : Stack) (x y : Float),
    s = (below.push (.number x)).push (.number y) ∧ (y = 0 ∨ y = negativeZero)

/-- A value is a number just when it is made from one. -/
theorem isNumber_iff {v : Value} : v.isNumber = true ↔ ∃ x, v = .number x := by
  cases v <;> simp [Value.isNumber]

/-- A value is a zero just when it is one of the two. -/
theorem isZero_iff {v : Value} :
    v.isZero = true ↔ ∃ y, v = .number y ∧ (y = 0 ∨ y = negativeZero) := by
  cases v <;> simp [Value.isZero, Number.beq_zero_iff]

/-- Strict division differs only where a number is divided by zero. Of other operands it complains
as lax division does. -/
theorem quotient_dividing (o : Options) (v w : Value) :
    quotient (o.dividing true) v w = quotient (o.dividing false) v w ∨
      (v.isNumber = true ∧ w.isZero = true ∧
        quotient (o.dividing true) v w = .error .zeroDivisor) := by
  by_cases hzero : (v.isNumber && w.isZero) = true
  · right
    obtain ⟨hv, hw⟩ := Bool.and_eq_true_iff.mp hzero
    refine ⟨hv, hw, ?_⟩
    simp [quotient, Options.dividing, hv, hw]
  · left
    have hfalse : (v.isNumber && w.isZero) = false := Bool.eq_false_of_not_eq_true hzero
    simp only [quotient, Options.dividing, Bool.true_and, Bool.false_and, hfalse]

/-- Under strict division an instruction does the same, or it divides by zero and is trapped for
that. -/
theorem perform_dividing (o : Options) (consts : List Value) (i : Instr) (s : Stack) (k : κ) :
    perform (o.dividing true) consts i s k = perform (o.dividing false) consts i s k ∨
      (DividesByZero i s ∧ perform (o.dividing true) consts i s k = .error .zeroDivisor) := by
  obtain ⟨op, operand⟩ := i
  by_cases hop : op = .div
  · subst hop
    unfold perform
    rcases combining_cases (o.dividing true) .div s k (quotient (o.dividing true)) with
      ⟨hlt, heq⟩ | ⟨v, w, below, rfl, -⟩
    · left
      have hnone := Stack.popTwo?_eq_none_iff.mpr hlt
      simp only [combining, hnone]
    · simp only [combining_push]
      rcases quotient_dividing o v w with heq | ⟨hv, hw, heq⟩
      · left
        rw [heq]
        rfl
      · right
        obtain ⟨x, rfl⟩ := isNumber_iff.mp hv
        obtain ⟨y, rfl, hy⟩ := isZero_iff.mp hw
        exact ⟨⟨rfl, below, x, y, rfl, hy⟩, by rw [heq]; rfl⟩
  · left
    cases op
    case div => exact absurd rfl hop
    all_goals rfl

/-- Strict division only adds traps for dividing by zero. -/
theorem curbs_dividing (o : Options) :
    Curbs (fun i s t => t = .zeroDivisor ∧ DividesByZero i s) (o.dividing true)
      (o.dividing false) where
  trace := rfl
  perform κ _ consts i s k := by
    rcases perform_dividing o consts i s k with heq | ⟨hzero, heq⟩
    · exact .inl heq
    · exact .inr ⟨_, ⟨rfl, hzero⟩, heq⟩

/-! ### Lax division has no fault of its own -/

section Lax

variable {op : Opcode} {stack : Stack} {trap : Trap}

omit [Sink κ] in

/-- A push never divides by zero. -/
theorem fault_of_pushing {v : Value} (h : pushing o stack k v = .error trap) :
    trap.fault ≠ .divisionByZero := by
  rcases pushing_cases o stack k v with ⟨-, heq⟩ | ⟨-, heq⟩
  · obtain rfl := Except.error.inj (heq.symm.trans h)
    simp [Trap.fault]
  · rw [heq] at h
    cases h

omit [Sink κ] in

/-- Taking an operand does not divide by zero unless what is done with it does. -/
theorem fault_of_taking {f : Value → Stack → Except Trap (Effect κ)}
    (hf : ∀ v below, f v below = .error trap → trap.fault ≠ .divisionByZero)
    (h : taking op stack f = .error trap) : trap.fault ≠ .divisionByZero := by
  rcases taking_cases op stack f with ⟨-, heq⟩ | ⟨v, below, -, heq⟩
  · obtain rfl := Except.error.inj (heq.symm.trans h)
    simp [Trap.fault]
  · exact hf v below (heq.symm.trans h)

omit [Sink κ] in

/-- Combining operands does not divide by zero if the operation minds only their types. -/
theorem fault_of_combining {f : Value → Value → Except Trap Value}
    (hf : ∀ v w, f v w = .error trap → trap.fault = .typeMismatch)
    (h : combining o op stack k f = .error trap) : trap.fault ≠ .divisionByZero := by
  rcases combining_cases o op stack k f with
    ⟨-, heq⟩ | ⟨v, w, below, -, ⟨t, ht, heq⟩ | ⟨u, -, heq⟩⟩
  · obtain rfl := Except.error.inj (heq.symm.trans h)
    simp [Trap.fault]
  · obtain rfl := Except.error.inj (heq.symm.trans h)
    simp [hf v w ht]
  · exact fault_of_pushing (heq.symm.trans h)

/-- Lax division minds only the types of its operands. -/
theorem fault_of_lax_quotient {v w : Value}
    (h : quotient (o.dividing false) v w = .error trap) : trap.fault = .typeMismatch := by
  simp only [quotient, Options.dividing, Bool.false_and, Bool.false_eq_true, if_false] at h
  exact fault_of_numeric h

/-- Under lax division no instruction is trapped by a division by zero. -/
theorem fault_of_lax_perform {consts : List Value} {i : Instr}
    (h : perform (o.dividing false) consts i stack k = .error trap) :
    trap.fault ≠ .divisionByZero := by
  obtain ⟨op, operand⟩ := i
  unfold perform at h
  cases op
  case const =>
    dsimp only at h
    split at h
    · obtain rfl := Except.error.inj h
      simp [Trap.fault]
    · exact fault_of_pushing h
  case pushNil | pushTrue | pushFalse => exact fault_of_pushing h
  case equal => exact fault_of_combining (fun _ _ hf => by cases hf) h
  case greater | less | sub | mul => exact fault_of_combining (fun _ _ => fault_of_numeric) h
  case add => exact fault_of_combining (fun _ _ => fault_of_sum) h
  case div => exact fault_of_combining (fun _ _ => fault_of_lax_quotient) h
  case jump => cases h
  -- the rest take one operand off
  all_goals
    refine fault_of_taking ?_ h
    intro v below hf
  case ret | pop => cases hf
  case not => exact fault_of_pushing hf
  case negate =>
    split at hf
    · obtain rfl := Except.error.inj hf
      simp [Trap.fault]
    · exact fault_of_pushing hf
  case print => split at hf <;> cases hf
  case jumpIfFalse => cases hf

/-- Under lax division no run ends in the fault of dividing by zero. -/
theorem lax_not_endsIn (o : Options) (c : Chunk) (k : κ) :
    ¬(run (o.dividing false) c k).EndsIn .divisionByZero := by
  rintro ⟨e, he, hfault⟩
  obtain ⟨s, -, hturn⟩ := exists_last_turn (o.dividing false) c k
  rw [he] at hturn
  rcases turn_eq_fault hturn with ⟨-, rfl⟩ | ⟨-, ⟨b, -, hb⟩ | ⟨op, -, hop⟩ | ⟨i, -, hperform⟩⟩
  · cases hfault
  · rw [hb] at hfault
    cases hfault
  · rw [hop] at hfault
    cases hfault
  · exact fault_of_lax_perform hperform hfault

end Lax

/-- Strict division only adds the fault of dividing by zero. Without it no run ends in that fault. A
run under strict division that does not end in it is the same run. One that does agrees with the run
under lax division up to a state where a number is divided by zero, and has written a part, from the
beginning, of what the other writes. -/
theorem run_dividing (o : Options) (c : Chunk) (k : κ) :
    ¬(run (o.dividing false) c k).EndsIn .divisionByZero ∧
    (¬(run (o.dividing true) c k).EndsIn .divisionByZero →
      run (o.dividing true) c k = run (o.dividing false) c k ∧
        output (o.dividing true) c k = output (o.dividing false) c k) ∧
    ((run (o.dividing true) c k).EndsIn .divisionByZero →
      output (o.dividing true) c k <+: output (o.dividing false) c k ∧
      ∃ s i, AgreeUpTo (o.dividing true) (o.dividing false) c k s ∧
        c.fetchAt? s.offset = some (.whole i) ∧ DividesByZero i s.stack ∧
        (run (o.dividing true) c k).result =
          .error (.fault ⟨.zeroDivisor, c.lineOf s.offset⟩)) := by
  have hlax := lax_not_endsIn o c k
  refine ⟨hlax, ?_⟩
  rcases run_of_curbs (curbs_dividing o) c k with
    hsame | ⟨s, i, _, hfetch, ⟨rfl, hzero⟩, hresult, hagree, hbegins⟩
  · refine ⟨fun _ => hsame, fun hends => ?_⟩
    rw [hsame.1] at hends
    exact absurd hends hlax
  · refine ⟨fun hends => absurd ⟨_, hresult, rfl⟩ hends, fun _ => ⟨hbegins, ?_⟩⟩
    exact ⟨s, i, hagree, hfetch, hzero, hresult⟩

/-- Code that prints, and then divides by the negative zero. -/
def byNegativeZero : Chunk :=
  ((Chunk.empty.addConst (.number 1)).addConst (.number negativeZero)).write
    [2, 15, 1, 0, 1, 1, 14, 15, 2, 0] 7

/-- The negative zero is a zero too. Strict division ends that code after the first of the two lines
that it prints otherwise. -/
theorem run_dividing_byNegativeZero :
    (run (({} : Options).dividing true) byNegativeZero ({} : Console)).EndsIn .divisionByZero ∧
    (run (({} : Options).dividing false) byNegativeZero ({} : Console)).result = .ok .nil ∧
    output (({} : Options).dividing true) byNegativeZero ({} : Console) <+:
      output (({} : Options).dividing false) byNegativeZero ({} : Console) ∧
    ∃ s i, AgreeUpTo (({} : Options).dividing true) (({} : Options).dividing false) byNegativeZero
        ({} : Console) s ∧ byNegativeZero.fetchAt? s.offset = some (.whole i) ∧
      DividesByZero i s.stack := by
  have hends : (run (({} : Options).dividing true) byNegativeZero ({} : Console)).EndsIn
      .divisionByZero := ⟨_, rfl, rfl⟩
  obtain ⟨hbegins, s, i, hagree, hfetch, hzero, -⟩ :=
    (run_dividing {} byNegativeZero ({} : Console)).2.2 hends
  exact ⟨hends, rfl, hbegins, s, i, hagree, hfetch, hzero⟩

end Machine

end Lox
