import Lox.Proofs.Levels
import Lox.Proofs.Verification

/-!
# Compiled chunks are well formed, and their stack is disciplined

A chunk that was compiled is taken here as what it is, some bytes. `wellFormed_of_compile` says that
they are a sequence of whole instructions with jumps from one to the start of another, and one
return at the end. `disciplined_of_compile` says what the stack is like: `Flows` follows every path
through the code, also those that no run takes because the condition of a jump is never so, and on
all of them the height of the stack is settled by the offset. Runs only follow such paths
(`flows_of_reachable`), hence none of them runs out of operands or meets a bad instruction.

Both are read off from the levels of the instructions (`Levelled`), once offsets are related to
places in the sequence: `Composed.fetchAt?_eq` for what is fetched, `Composed.exists_place` for
where paths lead.
-/

namespace Lox

namespace Chunk

/-- The code from an offset to its end is a sequence of whole instructions. -/
inductive Decomposes (c : Chunk) : Nat → List Instr → Prop where
  | done : Decomposes c c.size []
  | cons {n : Nat} {i : Instr} {is : List Instr} : c.fetchAt? n = some (.whole i) →
      Decomposes c (n + i.size) is → Decomposes c n (i :: is)

/-- The offset at which the instruction with an index begins, in a sequence that is a whole code. -/
def offsetOf (is : List Instr) (k : Nat) : Nat :=
  sizeOfAll (is.take k)

/-- The instructions that stand in front end where the others begin. -/
theorem offsetOf_append (front rest : List Instr) :
    offsetOf (front ++ rest) front.length = sizeOfAll front := by
  rw [offsetOf, List.take_left]

/-- A chunk is the given sequence of instructions, and the sequence is a good one. -/
structure WellFormed (c : Chunk) (is : List Instr) : Prop where
  /-- Every byte has a line. -/
  length_lines : c.lines.length = c.code.length
  /-- There is nothing for verification to find. -/
  verified : c.defect? = none
  /-- From the start on, whole instructions are read, up to the very end. -/
  decomposes : c.Decomposes 0 is
  /-- A jump leads to where an instruction of the sequence begins. That is within the code. -/
  jumps_land : ∀ k i, is[k]? = some i → i.op = .jump ∨ i.op = .jumpIfFalse →
    ∃ m, m < is.length ∧ offsetOf is m = offsetOf is k + i.size + i.operand ∧
      offsetOf is m < c.size
  /-- The last instruction is a return, and no other is. -/
  returns_last : ∃ front last, is = front ++ [last] ∧ last.op = .ret ∧ ∀ i ∈ front, i.op ≠ .ret

namespace Composed

variable {c : Chunk} {is front rest : List Instr} {i : Instr}

/-- The code has as many bytes as its instructions. -/
theorem size_eq (hc : c.Composed is) : c.size = sizeOfAll is := by
  rw [size, hc.code_eq, length_flatMap_encode]

/-- Behind the instructions in front stand the bytes of the others. -/
theorem drop_eq (hc : c.Composed (front ++ rest)) :
    c.code.drop (sizeOfAll front) = rest.flatMap Instr.encode := by
  rw [hc.code_eq, List.flatMap_append, List.drop_left' (length_flatMap_encode front)]

/-- What is fetched is the instruction that was written. -/
theorem fetchAt?_eq (hc : c.Composed (front ++ i :: rest)) :
    c.fetchAt? (sizeOfAll front) = some (.whole i) := by
  have hvalid := hc.valid i (List.mem_append_right _ List.mem_cons_self)
  obtain ⟨bs, hbytes, hfetch⟩ := fetch_encode hvalid.fits (rest.flatMap Instr.encode)
  rw [fetchAt?, hc.drop_eq, List.flatMap_cons, hbytes]
  exact congrArg some hfetch

/-- From the beginning of each instruction on, the code is a sequence of whole instructions. -/
theorem decomposes (hc : c.Composed (front ++ rest)) : c.Decomposes (sizeOfAll front) rest := by
  induction rest generalizing front with
  | nil =>
    have hsize := hc.size_eq
    rw [List.append_nil] at hsize
    rw [← hsize]
    exact .done
  | cons i rest ih =>
    refine .cons hc.fetchAt?_eq ?_
    rw [← sizeOfAll_concat]
    exact ih (by simpa using hc)

/-- A jump of the sequence lands on a later instruction. -/
theorem exists_landing (hc : c.Composed (front ++ i :: rest))
    (hop : i.op = .jump ∨ i.op = .jumpIfFalse) :
    ∃ skipped j last, rest = skipped ++ j :: last ∧ sizeOfAll skipped = i.operand := by
  obtain ⟨l, hlevel⟩ := hc.levelled.exists_drop
  obtain ⟨skipped, landing, hrest, hsize, hlanding⟩ := hlevel.leap hop
  obtain ⟨j, last, rfl⟩ := List.exists_cons_of_ne_nil hlanding.ne_nil
  exact ⟨skipped, j, last, hrest, hsize⟩

/-- No instruction of the sequence has a defect. -/
theorem instrDefect?_eq_none (hc : c.Composed (front ++ i :: rest)) :
    instrDefect? c.consts.length c.size (sizeOfAll front) i = none := by
  have hvalid := hc.valid i (List.mem_append_right _ List.mem_cons_self)
  have htarget : i.op = .jump ∨ i.op = .jumpIfFalse →
      sizeOfAll front + i.size + i.operand ≤ c.size := by
    intro hop
    obtain ⟨skipped, j, last, rfl, hsize⟩ := hc.exists_landing hop
    rw [hc.size_eq, sizeOfAll_append, sizeOfAll_cons, sizeOfAll_append, ← hsize]
    omega
  unfold instrDefect?
  split
  · rename_i hop
    exact if_neg (Nat.not_le_of_lt (hvalid.const_lt hop))
  · rename_i hop
    exact if_neg (Nat.not_lt_of_le (htarget (.inl hop)))
  · rename_i hop
    exact if_neg (Nat.not_lt_of_le (htarget (.inr hop)))
  · rfl

/-- From the beginning of each instruction on, the verifier finds nothing. -/
theorem defectFrom?_eq_none (hc : c.Composed (front ++ rest)) :
    c.defectFrom? (sizeOfAll front) = none := by
  induction rest generalizing front with
  | nil =>
    rw [defectFrom?, hc.drop_eq]
    rfl
  | cons i rest ih =>
    rw [defectFrom?_of_whole hc.fetchAt?_eq, hc.instrDefect?_eq_none, ← sizeOfAll_concat]
    exact ih (by simpa using hc)

/-- The verifier finds nothing in the whole chunk. -/
theorem defect?_eq_none (hc : c.Composed is) : c.defect? = none := by
  have hall : c.Composed ([] ++ is) := hc
  rw [defect?, if_neg (by simp [hc.length_lines])]
  exact hall.defectFrom?_eq_none

/-- Every jump of the sequence leads to the beginning of an instruction within the code. -/
theorem jumps_land (hc : c.Composed is) {k : Nat} (hk : is[k]? = some i)
    (hop : i.op = .jump ∨ i.op = .jumpIfFalse) :
    ∃ m, m < is.length ∧ offsetOf is m = offsetOf is k + i.size + i.operand ∧
      offsetOf is m < c.size := by
  obtain ⟨front, rest, rfl, rfl⟩ : ∃ front rest, is = front ++ i :: rest ∧ front.length = k := by
    obtain ⟨hlt, rfl⟩ := List.getElem?_eq_some_iff.mp hk
    refine ⟨is.take k, is.drop (k + 1), ?_, List.length_take_of_le (Nat.le_of_lt hlt)⟩
    rw [List.cons_getElem_drop_succ, List.take_append_drop]
  obtain ⟨skipped, j, last, rfl, hsize⟩ := hc.exists_landing hop
  -- the landing comes after the jump and what is skipped
  have hlanding : front ++ i :: (skipped ++ j :: last) = (front ++ i :: skipped) ++ j :: last := by
    simp
  have hoffset : offsetOf (front ++ i :: (skipped ++ j :: last)) (front ++ i :: skipped).length =
      sizeOfAll (front ++ i :: skipped) := by
    rw [hlanding, offsetOf_append]
  refine ⟨(front ++ i :: skipped).length, by simp, ?_, ?_⟩
  · rw [hoffset, offsetOf_append, sizeOfAll_append, sizeOfAll_cons, hsize, Nat.add_assoc]
  · rw [hoffset, hc.size_eq, hlanding, sizeOfAll_append _ (j :: last), sizeOfAll_cons j, Instr.size]
    omega

end Composed

end Chunk

/-- The chunk of an accepted source is a sequence of whole instructions without a defect, in which
jumps lead from instruction to instruction, and only the last one returns. -/
theorem wellFormed_of_compile {source : Bytes} {c : Chunk} (h : compile source = .ok c) :
    ∃ is, c.WellFormed is := by
  obtain ⟨is, hc⟩ := exists_composed_of_compile h
  have hall : c.Composed ([] ++ is) := hc
  exact ⟨is, hc.length_lines, hc.defect?_eq_none, hall.decomposes, fun _ _ => hc.jumps_land,
    hc.levelled.exists_ret⟩

/-- A source with jumps within the operands of other jumps and of a sum. -/
def nestedJumps : Bytes :=
  Utf8.ofString "1 + (nil or 2 and 3 or \"a\"); print !(false and nil) or true;"

/-- The source with nested jumps is accepted. -/
theorem compile_nestedJumps :
    compile nestedJumps = .ok (Compilation.ofSource nestedJumps).chunk := by
  rw [compile_eq, if_pos (by decide +kernel)]

/-- That source is accepted, and its chunk is well formed. -/
theorem wellFormed_of_compile_nestedJumps :
    ∃ c, compile nestedJumps = .ok c ∧ ∃ is, c.WellFormed is :=
  ⟨_, compile_nestedJumps, wellFormed_of_compile compile_nestedJumps⟩

/-! ## Paths through the code -/

namespace Chunk

/-- Some path through the code, from its start on an empty stack, comes to an offset with this many
values on the stack. A jump on a condition may be taken or not. -/
inductive Flows (c : Chunk) : Nat → Nat → Prop where
  | start : Flows c 0 0
  | next {n h l : Nat} {i : Instr} : Flows c n h → c.fetchAt? n = some (.whole i) →
      i.op ≠ .ret → i.op ≠ .jump → l + i.op.needs = h + i.op.leaves → Flows c (n + i.size) l
  | leap {n h : Nat} {i : Instr} : Flows c n h → c.fetchAt? n = some (.whole i) →
      i.op = .jump ∨ i.op = .jumpIfFalse → Flows c (n + i.size + i.operand) h

namespace Composed

variable {c : Chunk} {is : List Instr} {n h : Nat}

/-- A path leads to an instruction of the sequence, at that instruction's level. -/
theorem exists_place (hc : c.Composed is) (hflow : c.Flows n h) :
    ∃ front i rest, is = front ++ i :: rest ∧ n = sizeOfAll front ∧ Levelled h (i :: rest) := by
  -- what is fetched at a place is the instruction there
  have hfetched : ∀ {front rest : List Instr} {i j : Instr}, is = front ++ i :: rest →
      c.fetchAt? (sizeOfAll front) = some (.whole j) → i = j := by
    rintro front rest i j rfl hfetch
    simpa using hc.fetchAt?_eq.symm.trans hfetch
  induction hflow with
  | start =>
    obtain ⟨i, rest, rfl⟩ := List.exists_cons_of_ne_nil hc.levelled.ne_nil
    exact ⟨[], i, rest, rfl, rfl, hc.levelled⟩
  | next _ hfetch hret hjump hheight ih =>
    obtain ⟨front, i, rest, his, rfl, hlevel⟩ := ih
    obtain rfl := hfetched his hfetch
    have hrest := hlevel.next hret hjump hheight
    obtain ⟨j, last, rfl⟩ := List.exists_cons_of_ne_nil hrest.ne_nil
    exact ⟨front ++ [i], j, last, by simp [his], (sizeOfAll_concat ..).symm, hrest⟩
  | leap _ hfetch hop ih =>
    obtain ⟨front, i, rest, his, rfl, hlevel⟩ := ih
    obtain rfl := hfetched his hfetch
    obtain ⟨skipped, landing, rfl, hsize, hlanding⟩ := hlevel.leap hop
    obtain ⟨j, last, rfl⟩ := List.exists_cons_of_ne_nil hlanding.ne_nil
    refine ⟨front ++ i :: skipped, j, last, by simp [his], ?_, hlanding⟩
    rw [sizeOfAll_append, sizeOfAll_cons, hsize, Nat.add_assoc]

/-- Two paths to one offset come there with the same height. -/
theorem flows_unique (hc : c.Composed is) {l : Nat} (hh : c.Flows n h) (hl : c.Flows n l) :
    h = l := by
  obtain ⟨front, i, rest, rfl, rfl, hlevel⟩ := hc.exists_place hh
  obtain ⟨front', i', rest', his, hsize, hlevel'⟩ := hc.exists_place hl
  obtain ⟨-, hrest⟩ := append_inj_of_sizeOfAll his hsize
  rw [← hrest] at hlevel'
  exact hlevel.unique hlevel'

/-- Where a path leads there is an instruction, with enough operands for it. -/
theorem operands_of_flows (hc : c.Composed is) (hflow : c.Flows n h) :
    ∃ i, c.fetchAt? n = some (.whole i) ∧ i.Valid c.consts.length ∧ i.op.needs ≤ h ∧
      (i.op = .ret → h = 1 ∧ n + i.size = c.size) := by
  obtain ⟨front, i, rest, rfl, rfl, hlevel⟩ := hc.exists_place hflow
  obtain ⟨hneeds, hret⟩ := hlevel.needs_le
  refine ⟨i, hc.fetchAt?_eq, hc.valid i (List.mem_append_right _ List.mem_cons_self), hneeds,
    fun hop => ?_⟩
  obtain ⟨rfl, rfl⟩ := hret hop
  exact ⟨rfl, by rw [hc.size_eq, sizeOfAll_concat]⟩

end Composed

end Chunk

/-! ## Runs follow paths -/

namespace Machine

variable {κ : Type} [Sink κ] {o : Options} {c : Chunk} {k : κ} {s : State κ}

/-- Only instructions that neither return nor jump at any rate go on with the next one. -/
theorem op_of_perform_next {consts : List Value} {i : Instr} {s t : Stack} {k' : κ}
    (h : perform o consts i s k = .ok (.next t k')) : i.op ≠ .ret ∧ i.op ≠ .jump := by
  constructor
  · intro hop
    simp only [perform, hop] at h
    rcases taking_cases (κ := κ) .ret s (fun v _ => .ok (.done v)) with
      ⟨-, heq⟩ | ⟨v, below, -, heq⟩
    · rw [heq] at h
      cases h
    · rw [heq] at h
      cases h
  · intro hop
    simp only [perform, hop] at h
    cases h

/-- A return takes the top of the stack. -/
theorem stack_of_perform_done {consts : List Value} {i : Instr} {s : Stack} {v : Value}
    (h : perform o consts i s k = .ok (.done v)) :
    i.op = .ret ∧ ∃ below : Stack, s = below.push v := by
  have hperformed := performed o consts i s k
  rw [h] at hperformed
  cases hperformed with
  | done _ hop _ =>
    refine ⟨hop, ?_⟩
    simp only [perform, hop] at h
    rcases taking_cases (κ := κ) .ret s (fun v _ => .ok (.done v)) with
      ⟨-, heq⟩ | ⟨w, below, rfl, heq⟩
    · rw [heq] at h
      cases h
    · rw [heq] at h
      cases h
      exact ⟨below, rfl⟩

/-- A run follows a path, with the heights that its stack has. -/
theorem flows_of_reachable (h : Reachable o c k s) : c.Flows s.offset s.stack.height := by
  induction h with
  | start => exact .start
  | @turn s t _ hturn ih =>
    obtain ⟨i, hfetch, ⟨hperform, hoffset⟩ | ⟨hperform, hoffset, -⟩⟩ := turn_eq_go hturn <;>
      have hperformed := performed o c.consts i s.stack s.console <;>
      rw [hperform] at hperformed <;> rw [hoffset]
    · obtain ⟨hret, hjump⟩ := op_of_perform_next hperform
      cases hperformed with
      | next _ _ _ hheight _ => exact ih.next hfetch hret hjump hheight
    · generalize t.stack = stack at hperformed ⊢
      cases hperformed with
      | leap hop _ => exact ih.leap hfetch hop

/-- A turn that returns executes a return. -/
theorem turn_eq_ok {v : Value} {k' : κ} (h : turn o c s = .stop (.ok v) k') :
    ∃ i, c.fetchAt? s.offset = some (.whole i) ∧
      perform o c.consts i s.stack s.console = .ok (.done v) := by
  unfold turn at h
  split at h
  · cases h
  · cases h
  · cases h
  · rename_i i hfetch
    refine ⟨i, hfetch, ?_⟩
    split at h
    · cases h
    · rename_i effect hperform
      cases effect with
      | done w =>
        cases h
        exact hperform
      | _ => cases h

/-- In a run along levelled instructions no fault is one of the stack running out, or of a bad
instruction. -/
theorem fault_of_composed {is : List Instr} (hc : c.Composed is) {e : RuntimeError}
    (he : (run o c k).result = .error (.fault e)) :
    e.trap.fault ≠ .stackUnderflow ∧ e.trap.fault ≠ .badInstruction := by
  obtain ⟨s, hreach, hturn⟩ := exists_last_turn o c k
  rw [he] at hturn
  obtain ⟨i, hfetch, hvalid, hneeds, -⟩ := hc.operands_of_flows (flows_of_reachable hreach)
  rcases turn_eq_fault hturn with ⟨hf, -⟩ | ⟨-, ⟨b, hf, -⟩ | ⟨op, hf, -⟩ | ⟨j, hf, hperform⟩⟩
  · simp [hf] at hfetch
  · simp [hf] at hfetch
  · simp [hf] at hfetch
  · obtain rfl : i = j := by simpa using hfetch.symm.trans hf
    have hperformed := performed o c.consts i s.stack s.console
    rw [hperform] at hperformed
    generalize e.trap = trap at hperformed
    cases hperformed with
    | underflow hlt => omega
    | overflow => exact ⟨by simp [Trap.fault], by simp [Trap.fault]⟩
    | constant hop hindex => exact absurd (hvalid.const_lt hop) (Nat.not_lt_of_le hindex)
    | unsuited _ _ _ hfault => rcases hfault with hfault | hfault <;> simp [hfault]

/-- A run along levelled instructions returns the only value on the stack. -/
theorem stack_of_composed {is : List Instr} (hc : c.Composed is) (hreach : Reachable o c k s)
    {v : Value} {k' : κ} (hturn : turn o c s = .stop (.ok v) k') :
    s.stack = Stack.empty.push v := by
  obtain ⟨i, hfetch, hperform⟩ := turn_eq_ok hturn
  obtain ⟨hop, below, hstack⟩ := stack_of_perform_done hperform
  obtain ⟨j, hfetch', -, -, hret⟩ := hc.operands_of_flows (flows_of_reachable hreach)
  obtain rfl : i = j := by simpa using hfetch.symm.trans hfetch'
  have hheight := (hret hop).1
  rw [hstack, Stack.height_push] at hheight
  have hbelow : below.values = [] := by
    rw [← List.length_eq_zero_iff, ← below.height_eq]
    omega
  rw [hstack]
  congr 1
  exact Stack.ext_values hbelow

/-- What it means that the stack of a chunk is disciplined, with these heights. -/
structure Disciplined (c : Chunk) (height : Nat → Nat) : Prop where
  /-- On every path the height before an instruction is the one of its offset. There is an
  instruction there and it finds its operands; a return is the end of the code and finds one. -/
  settled : ∀ n h, c.Flows n h → h = height n ∧ ∃ i, c.fetchAt? n = some (.whole i) ∧
    i.op.needs ≤ h ∧ (i.op = .ret → h = 1 ∧ n + i.size = c.size)
  /-- Every run follows such a path. -/
  followed : ∀ (κ : Type) [Sink κ] (o : Options) (k : κ) (s : State κ), Reachable o c k s →
    c.Flows s.offset s.stack.height
  /-- No run runs out of operands or meets a bad instruction. -/
  unfailing : ∀ (κ : Type) [Sink κ] (o : Options) (k : κ) (e : RuntimeError),
    (run o c k).result = .error (.fault e) →
      e.trap.fault ≠ .stackUnderflow ∧ e.trap.fault ≠ .badInstruction
  /-- A run that returns a value takes the only one on the stack in its last turn. -/
  emptied : ∀ (κ : Type) [Sink κ] (o : Options) (k : κ) (v : Value),
    (run o c k).result = .ok v → ∃ s, Reachable o c k s ∧
      turn o c s = .stop (.ok v) (run o c k).console ∧ s.stack = Stack.empty.push v

/-- The stack of the chunk of an accepted source is disciplined. -/
theorem disciplined_of_compile {source : Bytes} {c : Chunk} (h : compile source = .ok c) :
    ∃ height, Disciplined c height := by
  obtain ⟨is, hc⟩ := exists_composed_of_compile h
  have hheight : ∀ n, ∃ h, ∀ l, c.Flows n l → l = h := by
    intro n
    by_cases hflow : ∃ h, c.Flows n h
    · obtain ⟨h, hh⟩ := hflow
      exact ⟨h, fun l hl => hc.flows_unique hl hh⟩
    · exact ⟨0, fun l hl => absurd ⟨l, hl⟩ hflow⟩
  choose height hsettled using hheight
  refine ⟨height, ?_, ?_, ?_, ?_⟩
  · intro n l hl
    obtain ⟨i, hfetch, -, hneeds, hret⟩ := hc.operands_of_flows hl
    exact ⟨hsettled n l hl, i, hfetch, hneeds, hret⟩
  · intro κ _ o k s hreach
    exact flows_of_reachable hreach
  · intro κ _ o k e he
    exact fault_of_composed hc he
  · intro κ _ o k v hv
    obtain ⟨s, hreach, hturn⟩ := exists_last_turn o c k
    rw [hv] at hturn
    exact ⟨s, hreach, hturn, stack_of_composed hc hreach hturn⟩

/-- The stack is disciplined in a chunk with nested jumps too. -/
theorem disciplined_of_compile_nestedJumps :
    ∃ c, compile nestedJumps = .ok c ∧ ∃ height, Disciplined c height :=
  ⟨_, compile_nestedJumps, disciplined_of_compile compile_nestedJumps⟩

end Machine

end Lox
