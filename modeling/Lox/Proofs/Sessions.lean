import Lox.Compiler
import Lox.Proofs.Sinks
import Lox.Repl

/-!
# Sessions

An engine, a compiler and the read-eval-print loop are used again and again, and each use leaves
something behind. Nothing of it can be seen later:

* What an engine answers depends on its options and its sink alone, whatever its storage holds:
  `Engine.call_eq` gives the answer without an engine, as a run of the machine. The engine goes to
  its instructions by offset, and `Engine.outcome_loop` says that it takes the turns of such a run.
* What a compiler makes of a source depends on the source alone (`Compiler.fst_compile`).
* A sink that takes everything takes the same after other output as at first, so every line given to
  the loop adds to the output just what it says on its own (`Repl.Said.step`).

`unaffected_by_history` puts the three together.
-/

namespace Lox

/-! ## Fetching by offset -/

namespace Instr

/-- An operand is read from its own bytes. -/
theorem readOperand?_take {n m : Nat} (h : n ≤ m) (k : Nat) (bs : Bytes) :
    readOperand? n k (bs.take m) = readOperand? n k bs := by
  induction n generalizing m k bs with
  | zero => rfl
  | succ n ih =>
    obtain ⟨m, rfl⟩ : ∃ m', m = m' + 1 := ⟨m - 1, by omega⟩
    cases bs with
    | nil => rfl
    | cons b rest =>
      rw [List.take_succ_cons, readOperand?, readOperand?]
      exact ih (by omega) _ rest

end Instr

/-- An instruction is fetched from its first byte and the widest operand. -/
theorem fetch_take (b : UInt8) (rest : Bytes) :
    fetch b (rest.take Layout.maxWidth) = fetch b rest := by
  unfold fetch
  split
  · rfl
  · rename_i op _
    have hwidth : op.width ≤ Layout.maxWidth := by cases op <;> decide
    rw [Instr.readOperand?_take hwidth]

namespace Layout

/-- An instruction is fetched from the layout as it is from the chunk. -/
theorem fetch?_ofChunk (c : Chunk) (offset : Nat) :
    (ofChunk c).fetch? offset = c.fetchAt? offset := by
  unfold fetch? Chunk.fetchAt?
  rcases hcode : c.code.drop offset with _ | ⟨b, rest⟩
  · have hnone : c.code[offset]? = none :=
      List.getElem?_eq_none (List.drop_eq_nil_iff.mp hcode)
    simp [ofChunk, hnone]
  · have hsome : c.code[offset]? = some b := by
      rw [← List.head?_drop, hcode]
      rfl
    have hrest : c.code.drop (offset + 1) = rest := by
      rw [← List.drop_drop, hcode]
      rfl
    have hbytes : ((ofChunk c).code.extract (offset + 1) (offset + 1 + maxWidth)).toList =
        rest.take maxWidth := by
      rw [← hrest, Array.toList_extract]
      simp [ofChunk, List.extract]
    rw [hbytes]
    simp [ofChunk, hsome, fetch_take]

/-- A line is found in the layout as it is in the chunk. -/
theorem lineAt_ofChunk (c : Chunk) (offset : Nat) :
    (ofChunk c).lineAt offset = c.lineOf offset := by
  simp [lineAt, ofChunk, Chunk.lineOf, List.headD_eq_head?_getD]

/-- The line before an offset is found in the layout as it is in the chunk. -/
theorem lineBefore?_ofChunk (c : Chunk) (offset : Nat) :
    (ofChunk c).lineBefore? offset = c.lineBefore? offset := by
  simp [lineBefore?, ofChunk, Chunk.lineBefore?]

end Layout

/-! ## An engine takes the turns of a run -/

namespace Engine

variable {κ : Type}

/-- Where a run stands, when an engine has come this far. -/
def state (e : Engine κ) : Machine.State κ :=
  ⟨e.next, e.stack, e.console⟩

/-- The turn that an engine has taken. -/
def Tick.turn : Tick κ → Machine.Turn κ
  | .go e => .go e.state
  | .stop result e => .stop result e.console

/-- The engine after executing an instruction, whether or not the run goes on. -/
def Tick.engine : Tick κ → Engine κ
  | .go e => e
  | .stop _ e => e

/-- What a run of an engine came to. -/
def Ended.outcome (r : Ended κ) : Machine.Outcome κ :=
  ⟨r.result, r.engine.console, r.log⟩

/-- To pop a value changes only the stack. -/
theorem popped_eq (e : Engine κ) : ∃ stack, e.popped = { e with stack := stack } := by
  unfold popped
  split
  · exact ⟨_, rfl⟩
  · exact ⟨e.stack, rfl⟩

variable [Sink κ]

/-- An engine executes what the turn says. -/
theorem turn_execute {c : Chunk} {e : Engine κ} {f : Fetched} (h : c.fetchAt? e.next = some f) :
    (e.execute c (.ofChunk c) f).turn = Machine.turn e.options c e.state := by
  have hfetch : c.fetchAt? e.state.offset = some f := h
  have hline : (Layout.ofChunk c).lineAt e.next = c.lineOf e.next := Layout.lineAt_ofChunk c e.next
  unfold Machine.turn
  rw [hfetch]
  cases f with
  | unknown b => simp only [execute, enter, trapped, Tick.turn, hline, Machine.State.trapped, state]
  | truncated op =>
    simp only [execute, enter, trapped, Tick.turn, hline, Machine.State.trapped, state]
  | whole i =>
    obtain ⟨below, hpopped⟩ := popped_eq (e.enter i.size)
    simp only [execute, hpopped]
    simp only [enter, trapped, state, hline]
    rcases Machine.perform e.options c.consts i e.stack e.console with t | (_ | _ | _ | _) <;> rfl

/-- An instruction leaves the options of the engine as they are. -/
theorem options_execute (c : Chunk) (l : Layout) (e : Engine κ) (f : Fetched) :
    (e.execute c l f).engine.options = e.options := by
  cases f with
  | unknown b => rfl
  | truncated op => rfl
  | whole i =>
    obtain ⟨below, hpopped⟩ := popped_eq (e.enter i.size)
    simp only [execute, hpopped]
    split <;> rfl

omit [Sink κ] in
/-- An engine logs what the turn logs. -/
theorem traced_eq_logAt {c : Chunk} {e : Engine κ} {f : Fetched} (h : c.fetchAt? e.next = some f)
    (log : List Log.Entry) :
    Machine.traced e.options c.consts e.next ((Layout.ofChunk c).lineBefore? e.next)
      ((Layout.ofChunk c).lineAt e.next) f e.stack log = Machine.logAt e.options c e.state log := by
  have hfetch : c.fetchAt? e.state.offset = some f := h
  rw [Layout.lineBefore?_ofChunk, Layout.lineAt_ofChunk, Machine.logAt, hfetch]
  rfl

/-- What is left of a run does not depend on how the engine came this far. -/
theorem outcome_loop (c : Chunk) (e : Engine κ) (log : List Log.Entry) :
    (e.loop c (.ofChunk c) log).outcome = Machine.resume e.options c e.state log ∧
      (e.loop c (.ofChunk c) log).engine.options = e.options := by
  fun_induction loop c (.ofChunk c) e log with
  | case1 e log hfetch =>
    rw [Layout.fetch?_ofChunk] at hfetch
    have hturn : Machine.turn e.options c e.state =
        .stop (.error (.fault ⟨.pastEnd, c.lastLine⟩)) e.console := by
      unfold Machine.turn state
      rw [hfetch]
    have hlog : Machine.logAt e.options c e.state log = log := by
      unfold Machine.logAt state
      rw [hfetch]
    rw [Machine.resume_eq_turn, hturn, hlog]
    exact ⟨rfl, rfl⟩
  | case2 e log f hfetch log' e' hgo ih =>
    rw [Layout.fetch?_ofChunk] at hfetch
    have hturn := turn_execute hfetch
    have hoptions := options_execute c (.ofChunk c) e f
    rw [hgo] at hturn hoptions
    have hlog : log' = Machine.logAt e.options c e.state log := traced_eq_logAt hfetch log
    rw [Machine.resume_eq_turn, ← hturn, ← hlog]
    exact ⟨ih.1.trans (congrArg (Machine.resume · c e'.state log') hoptions), ih.2.trans hoptions⟩
  | case3 e log f hfetch log' result e' hstop =>
    rw [Layout.fetch?_ofChunk] at hfetch
    have hturn := turn_execute hfetch
    have hoptions := options_execute c (.ofChunk c) e f
    rw [hstop] at hturn hoptions
    have hlog : log' = Machine.logAt e.options c e.state log := traced_eq_logAt hfetch log
    rw [Machine.resume_eq_turn, ← hturn, ← hlog]
    exact ⟨rfl, hoptions⟩

/-- A run is the machine's run, whatever the engine held before. -/
theorem outcome_run (e : Engine κ) (c : Chunk) :
    (e.run (some c)).outcome = Machine.run e.options c e.console :=
  (outcome_loop c (e.reset (some c)) []).1

/-- A run leaves the options of the engine as they are. -/
theorem options_run (e : Engine κ) (c? : Option Chunk) : (e.run c?).engine.options = e.options := by
  cases c? with
  | none => rfl
  | some c => exact (outcome_loop c (e.reset (some c)) []).2

end Engine

/-! ## Calls -/

namespace Interpretation

variable {κ κ' : Type}

/-- What a run comes to, after some entries in the log. -/
def ofOutcome (log : List Log.Entry) (r : Machine.Outcome κ) : Interpretation κ where
  result := r.result.mapError Failure.ofStop
  console := r.console
  log := log ++ r.log.reverse

/-- An interpretation with its sink mapped. -/
def map (f : κ → κ') (r : Interpretation κ) : Interpretation κ' :=
  ⟨r.result, f r.console, r.log⟩

end Interpretation

namespace Call

variable {κ κ' : Type} [Sink κ] [Sink κ']

/-- The answer to a call, given by the options and the sink alone. -/
def answer (o : Machine.Options) (k : κ) : Call → Interpretation κ
  | .run none => ⟨.error (.ofStop (.fault ⟨.noChunk, 0⟩)), k, []⟩
  | .run (some c) => .ofOutcome [] (Machine.run o c k)
  | .interpret source =>
    match compile source with
    | .error ds => ⟨.error (.ofDiagnostics ds), k, [(Compilation.ofSource source).listingEntry]⟩
    | .ok c => .ofOutcome [(Compilation.ofSource source).listingEntry] (Machine.run o c k)

/-- The answer is the same on either sink. -/
theorem answer_map {f : κ → κ'} (hf : Machine.Respects f) (o : Machine.Options) (k : κ)
    (call : Call) : call.answer o (f k) = (call.answer o k).map f := by
  unfold answer
  split
  · rfl
  · rw [Machine.run_map hf]
    rfl
  · split
    · rfl
    · rw [Machine.run_map hf]
      rfl

end Call

namespace Engine

variable {κ : Type} [Sink κ]

/-- What an engine answers depends on its options and its sink alone. -/
theorem call_eq (e : Engine κ) (call : Call) :
    (e.call call).1 = call.answer e.options e.console := by
  have hanswer : ∀ (c : Chunk) (log : List Log.Entry),
      ((e.run (some c)).answer log).1 = .ofOutcome log (Machine.run e.options c e.console) := by
    intro c log
    rw [← outcome_run]
    rfl
  cases call with
  | run c? =>
    cases c? with
    | none => rfl
    | some c => exact hanswer c []
  | interpret source =>
    simp only [call, Call.answer, compile]
    cases (Compilation.ofSource source).result with
    | error ds => rfl
    | ok c => exact hanswer c _

/-- A call leaves the options of the engine as they are. -/
theorem options_call (e : Engine κ) (call : Call) : (e.call call).2.options = e.options := by
  cases call with
  | run c? => exact options_run e c?
  | interpret source =>
    unfold Engine.call
    dsimp only
    split
    · rfl
    · exact options_run e _

/-- The engine keeps the sink that it answers with. -/
theorem console_call (e : Engine κ) (call : Call) :
    (e.call call).2.console = (e.call call).1.console := by
  cases call with
  | run c? => rfl
  | interpret source =>
    unfold Engine.call
    dsimp only
    split <;> rfl

/-- The engine after a history of calls. -/
def after (e : Engine κ) (history : List Call) : Engine κ :=
  history.foldl (fun e call => (e.call call).2) e

/-- No history of calls changes the options of the engine. -/
theorem options_after (e : Engine κ) (history : List Call) :
    (e.after history).options = e.options := by
  induction history generalizing e with
  | nil => rfl
  | cons call history ih => exact (ih (e.call call).2).trans (options_call e call)

end Engine

/-! ## Sources -/

namespace Compiler

/-- The compiler after a history of sources. -/
def after (history : List Bytes) : Compiler :=
  history.foldl (fun k source => (k.compile source).2) {}

/-- What a compiler makes of a source depends on the source alone. -/
theorem fst_compile (k : Compiler) (source : Bytes) :
    (k.compile source).1 = Compilation.ofSource source := rfl

/-- A compiler had an error just when the source does not compile. -/
theorem hadError_compile (k : Compiler) (source : Bytes) :
    (k.compile source).2.hadError = true ↔ ∃ ds, Lox.compile source = .error ds := by
  have hhad : (k.compile source).2.hadError = !(Compilation.ofSource source).errors.isEmpty := by
    show _ = !(List.isEmpty (List.reverse _))
    rw [List.isEmpty_reverse]
    rfl
  rw [hhad, Lox.compile, Compilation.result]
  cases (Compilation.ofSource source).errors.isEmpty <;> simp

end Compiler

/-! ## Lines -/

namespace Repl

/-- The answer to a call alone: to a new engine with an empty console. -/
def alone (o : Machine.Options) (call : Call) : Interpretation Console :=
  .ofCall o {} call

/-- What a line says on its own: all that it prints and, if it succeeds, its value. -/
def said (o : Machine.Options) (line : Bytes) : Bytes :=
  let r := alone o (.interpret line)
  r.console.output ++
    match r.result with
    | .error _ => []
    | .ok v => Utf8.ofString (v.readable ++ "\n")

/-- On a console without a limit a call comes to the same as on an empty one, after what was written
before. -/
theorem call_unlimited {e : Engine Console} (hroom : e.console.room = none) (call : Call) :
    (e.call call).1.result = (alone e.options call).result ∧
      (e.call call).1.console.room = none ∧
      (e.call call).1.console.output =
        e.console.output ++ (alone e.options call).console.output := by
  have hconsole : e.console = Transcript.after e.console.written {} := by
    cases hk : e.console
    rw [hk] at hroom
    cases hroom
    rfl
  have hused : (e.call call).1 =
      (call.answer e.options ({} : Transcript)).map (Transcript.after e.console.written) := by
    rw [Engine.call_eq, ← Call.answer_map (Transcript.respects_after _), ← hconsole]
  have hfresh : alone e.options call =
      (call.answer e.options ({} : Transcript)).map (Transcript.after []) := by
    rw [← Call.answer_map (Transcript.respects_after _)]
    exact Engine.call_eq _ call
  rw [hused, hfresh]
  refine ⟨rfl, rfl, ?_⟩
  simp [Interpretation.map, Transcript.after, Console.output]

/-- The loop runs under some options, without a limit to the output, and has said this much. -/
structure Said (o : Machine.Options) (out : Bytes) (s : State) : Prop where
  options : s.engine.options = o
  room : s.engine.console.room = none
  output : s.engine.console.output = out

/-- Before the first call nothing has been said. -/
theorem said_start (o : Machine.Options) : Said o [] (start o) :=
  ⟨rfl, rfl, rfl⟩

/-- A line that is not blank adds what it says on its own. -/
theorem Said.step {o : Machine.Options} {out : Bytes} {s : State} (h : Said o out s) {line : Bytes}
    (hline : isBlank line = false) : Said o (out ++ said o line) (step s line) := by
  obtain ⟨rfl, hroom, rfl⟩ := h
  obtain ⟨hresult, hroom', houtput⟩ := call_unlimited hroom (.interpret line)
  have hoptions := s.engine.options_call (.interpret line)
  have hconsole := s.engine.console_call (.interpret line)
  simp only [Repl.step, said, hline, ← hresult, Bool.false_eq_true, if_false, ← List.append_assoc,
    ← houtput]
  cases (s.engine.call (.interpret line)).1.result with
  | error f =>
    refine ⟨hoptions, ?_, ?_⟩
    · exact (congrArg Console.room hconsole).trans hroom'
    · rw [List.append_nil]
      exact congrArg Console.output hconsole
  | ok v =>
    refine ⟨hoptions, ?_, ?_⟩
    · simp [Console.write?, hroom']
    · simp [Console.write?, hroom', Console.output]

/-- The loop says what its lines say, one after another. -/
theorem said_runLines (o : Machine.Options) (lines : List Bytes) :
    Said o ((lines.filter (!isBlank ·)).flatMap (said o)) (runLines o lines) := by
  unfold runLines
  suffices h : ∀ out s, Said o out s →
      Said o (out ++ (lines.filter (!isBlank ·)).flatMap (said o)) (lines.foldl step s) from
    h [] (start o) (said_start o)
  induction lines with
  | nil =>
    intro out s hs
    simpa using hs
  | cons line lines ih =>
    intro out s hs
    by_cases hline : isBlank line = true
    · have hstep : step s line = s := if_pos hline
      simpa [hline, hstep] using ih out s hs
    · have hline' : isBlank line = false := by simpa using hline
      simpa [hline'] using ih _ _ (hs.step hline')

end Repl

/-- No use of an engine, a compiler or the loop can be told from a first use. Every call on an
engine is answered as by a new engine with the same options and with the sink as it is by then.
Every source is compiled as by a new compiler, which says that it had an error just when there is
one. Every line given to the loop that is not blank adds what it says on its own to the output. -/
theorem unaffected_by_history {κ : Type} [Sink κ] (o : Machine.Options) :
    (∀ (k : κ) (history : List Call) (call : Call),
      (((Engine.new o k).after history).call call).1 =
        ((Engine.new o ((Engine.new o k).after history).console).call call).1) ∧
    (∀ (history : List Bytes) (source : Bytes),
      ((Compiler.after history).compile source).1 = (({} : Compiler).compile source).1 ∧
        ((Compiler.after history).compile source).1.result = compile source ∧
        ((Compiler.after history).compile source).2.hadError =
          (({} : Compiler).compile source).2.hadError ∧
        (((Compiler.after history).compile source).2.hadError = true ↔
          ∃ ds, compile source = .error ds)) ∧
    ∀ lines : List Bytes,
      (Repl.runLines o lines).engine.console.output =
        (lines.filter (!Repl.isBlank ·)).flatMap (Repl.said o) := by
  refine ⟨?_, ?_, ?_⟩
  · intro k history call
    rw [Engine.call_eq, Engine.call_eq, Engine.options_after]
    rfl
  · intro history source
    rw [Compiler.fst_compile, Compiler.fst_compile]
    exact ⟨rfl, rfl, rfl, Compiler.hadError_compile _ source⟩
  · intro lines
    exact (Repl.said_runLines o lines).output

end Lox
