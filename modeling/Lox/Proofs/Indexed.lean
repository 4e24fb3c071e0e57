import Lox.Proofs.Effects
import Lox.Proofs.Steps

/-!
# The machine by indices

The machine of `Lox.Machine.Run` takes its code, lines and operands apart as lists and so cannot
read where there is nothing. Here is the same machine as it works on indexed storage: it keeps an
offset into the code, reads every byte, line, constant and operand by its index, and breaks down
when an index is out of range. It also breaks down when it has executed as many instructions as it
was allowed and is not at the end.

`Indexed.run_eq`: when every byte of code has a line, and as many instructions are allowed as there
are bytes, the machine by indices does not break down and comes to exactly what `run` comes to, the
log included. The pops have no check of their own. What keeps them in range is that `need` stands
before each of them.
-/

namespace Lox.Machine.Indexed

/-- Why a run by indices breaks down. -/
inductive Breakdown where
  /-- An index lies outside of what it is used on. -/
  | outOfRange (index : Int) (length : Nat)
  /-- The instructions allowed are used up. -/
  | unfinished
  deriving DecidableEq, Repr

/-- The element at an index. -/
def read {α : Type} (xs : List α) (index : Int) : Except Breakdown α :=
  match Chunk.at? xs index with
  | some x => .ok x
  | none => .error (.outOfRange index xs.length)

/-- What an instruction leads to, where operands are kept from the bottom of the stack up. -/
inductive Move (κ : Type) where
  /-- The run goes on at an offset. -/
  | go (offset : Nat) (slots : List Value) (console : κ)
  /-- The run ends. -/
  | stop (result : Except Stop Value) (console : κ)

variable {κ : Type}

/-- The end of a run by a trap, blamed on the line of the instruction. -/
def blame (c : Chunk) (inst : Nat) (k : κ) (t : Trap) : Except Breakdown (Move κ) := do
  let line ← if inst < c.lines.length then read c.lines inst else pure 0
  return .stop (.error (.fault ⟨t, line⟩)) k

/-- The operand at a distance from the top. -/
def peek (slots : List Value) (distance : Nat) : Except Breakdown Value :=
  read slots ((slots.length : Int) - 1 - distance)

/-- The top and the operands below it. -/
def pop (slots : List Value) : Except Breakdown (Value × List Value) := do
  let v ← read slots ((slots.length : Int) - 1)
  return (v, slots.dropLast)

/-- Goes on at the offset `next` with a value added, within the limit. -/
def push (o : Options) (c : Chunk) (inst next : Nat) (slots : List Value) (k : κ) (v : Value) :
    Except Breakdown (Move κ) :=
  if o.limit ≤ slots.length then blame c inst k (.overflow o.limit)
  else return .go next (slots ++ [v]) k

/-- Acts if there are as many operands as the instruction needs. Its name is looked up again to
report that there are not. -/
def need (c : Chunk) (inst : Nat) (slots : List Value) (k : κ) (n : Nat)
    (act : Except Breakdown (Move κ)) : Except Breakdown (Move κ) :=
  if slots.length < n then do
    let b ← read c.code inst
    match Opcode.ofByte? b with
    | some op => blame c inst k (.underflow op n slots.length)
    | none => blame c inst k (.unknown b)
  else act

/-- Puts the result of an operation in the place of its two operands. -/
def binary (o : Options) (c : Chunk) (inst next : Nat) (slots : List Value) (k : κ)
    (f : Value → Value → Except Trap Value) : Except Breakdown (Move κ) :=
  need c inst slots k 2 do
    let left ← peek slots 1
    let right ← peek slots 0
    match f left right with
    | .error t => blame c inst k t
    | .ok v => do
      let (_, slots) ← pop slots
      let (_, slots) ← pop slots
      push o c inst next slots k v

/-- The distance of a jump. -/
def distance (c : Chunk) (offset : Nat) : Except Breakdown Nat := do
  let high ← read c.code offset
  let low ← read c.code (offset + 1)
  return high.toNat * 256 + low.toNat

/-- Executes the instruction at `inst`, which ends at `next`. -/
def act [Sink κ] (o : Options) (c : Chunk) (inst next : Nat) (slots : List Value) (k : κ) :
    Opcode → Except Breakdown (Move κ)
  | .ret => need c inst slots k 1 do
    let (v, _) ← pop slots
    return .stop (.ok v) k
  | .const => do
    let index ← read c.code (inst + 1)
    if c.consts.length ≤ index.toNat then blame c inst k (.constant index.toNat)
    else
      let v ← read c.consts index.toNat
      push o c inst next slots k v
  | .pushNil => push o c inst next slots k .nil
  | .pushTrue => push o c inst next slots k (.bool true)
  | .pushFalse => push o c inst next slots k (.bool false)
  | .pop => need c inst slots k 1 do
    let (_, slots) ← pop slots
    return .go next slots k
  | .equal => binary o c inst next slots k fun v w => .ok (.bool (v.equals w))
  | .greater => binary o c inst next slots k (numeric Value.greater?)
  | .less => binary o c inst next slots k (numeric Value.less?)
  | .not => need c inst slots k 1 do
    let (v, slots) ← pop slots
    push o c inst next slots k (.bool !v.isTruthy)
  | .negate => need c inst slots k 1 do
    let v ← peek slots 0
    match v.negate? with
    | none => blame c inst k (.notNumber v)
    | some w => do
      let (_, slots) ← pop slots
      push o c inst next slots k w
  | .add => binary o c inst next slots k sum
  | .sub => binary o c inst next slots k (numeric Value.sub?)
  | .mul => binary o c inst next slots k (numeric Value.mul?)
  | .div => do
    -- a zero divisor is looked for ahead of the division proper
    let zero ← if o.strictDivision && 2 ≤ slots.length then do
        let left ← peek slots 1
        let right ← peek slots 0
        pure (left.isNumber && right.isZero)
      else pure false
    if zero then blame c inst k .zeroDivisor
    else binary o c inst next slots k (numeric Value.div?)
  | .print => need c inst slots k 1 do
    let (v, slots) ← pop slots
    match Sink.write k (v.printed ++ [0x0A]) with
    | (k, none) => return .go next slots k
    | (k, some reason) => return .stop (.error (.refused reason)) k
  | .jump => do
    let n ← distance c (inst + 1)
    return .go (next + n) slots k
  | .jumpIfFalse => need c inst slots k 1 do
    let v ← peek slots 0
    if v.isTruthy then return .go next slots k
    else
      let n ← distance c (inst + 1)
      return .go (next + n) slots k

/-- Looks at the instruction at `inst` and executes it. -/
def step [Sink κ] (o : Options) (c : Chunk) (inst : Nat) (slots : List Value) (k : κ) :
    Except Breakdown (Move κ) := do
  let b ← read c.code inst
  match Opcode.ofByte? b with
  | none => blame c inst k (.unknown b)
  | some op =>
    if c.code.length < inst + 1 + op.width then blame c inst k (.truncated op)
    else act o c inst (inst + 1 + op.width) slots k op

/-- The operand of an instruction, by the number of its bytes. -/
def operand (c : Chunk) (offset : Nat) : Nat → Except Breakdown Nat
  | 0 => return 0
  | 1 => do
    let b ← read c.code offset
    return b.toNat
  | _ => distance c offset

/-- What stands at an offset, for the listing. The constant of an instruction is looked up to be
shown. -/
def inspect (c : Chunk) (offset : Nat) : Except Breakdown Fetched := do
  let b ← read c.code offset
  match Opcode.ofByte? b with
  | none => return .unknown b
  | some op =>
    if c.code.length ≤ offset + op.width then return .truncated op
    else
      let n ← operand c (offset + 1) op.width
      if op = .const && n < c.consts.length then
        let _ ← read c.consts n
      return .whole ⟨op, n⟩

/-- The line of the listing for an offset. -/
def listed (c : Chunk) (offset : Nat) : Except Breakdown String := do
  let line ← read c.lines offset
  let previous ← if 0 < offset then some <$> read c.lines ((offset : Int) - 1) else pure none
  let f ← inspect c offset
  return Chunk.instrLine c.consts offset previous line f

/-- The log after looking at the instruction at an offset. -/
def trace (o : Options) (c : Chunk) (offset : Nat) (slots : List Value) (log : List Log.Entry) :
    Except Breakdown (List Log.Entry) :=
  if o.trace then do
    let line ← listed c offset
    let shown := slots.map fun v => s!"[ {v.readable} ]"
    return ⟨.trace, line⟩ :: ⟨.trace, "          " ++ Text.join shown⟩ :: log
  else return log

/-- The line of the last byte. -/
def lastLine (c : Chunk) : Except Breakdown Int :=
  if 0 < c.lines.length then read c.lines ((c.lines.length : Int) - 1) else return 0

/-- Runs the code from an offset on. The first argument is the number of instructions allowed. -/
def loop [Sink κ] (o : Options) (c : Chunk) :
    Nat → Nat → List Value → κ → List Log.Entry → Except Breakdown (Outcome κ)
  | allowed, inst, slots, k, log =>
    if c.code.length ≤ inst then do
      let line ← lastLine c
      return ⟨.error (.fault ⟨.pastEnd, line⟩), k, log⟩
    else
      match allowed with
      | 0 => .error .unfinished
      | allowed + 1 => do
        let log ← trace o c inst slots log
        match ← step o c inst slots k with
        | .go offset slots k => loop o c allowed offset slots k log
        | .stop result k => return ⟨result, k, log⟩

/-- Runs a chunk, with a number of instructions allowed. -/
def run [Sink κ] (o : Options) (c : Chunk) (allowed : Nat) (k : κ) :
    Except Breakdown (Outcome κ) :=
  loop o c allowed 0 [] k []

/-! ## Reads in range -/

/-- A read within the range succeeds. -/
theorem read_eq {α : Type} {xs : List α} {i : Nat} (h : i < xs.length) :
    read xs (i : Int) = .ok xs[i] := by
  have hneg : ¬(i : Int) < 0 := by omega
  simp [read, Chunk.at?, hneg, List.getElem?_eq_getElem h]

/-- The last element is read at the length less one. -/
theorem read_last {α : Type} (xs : List α) (x : α) :
    read (xs ++ [x]) (((xs ++ [x]).length : Int) - 1) = .ok x := by
  have hindex : (((xs ++ [x]).length : Int) - 1) = (xs.length : Nat) := by simp
  rw [hindex, read_eq (by simp)]
  simp

/-- The last operand is popped, and the others stay. -/
theorem pop_append (slots : List Value) (v : Value) : pop (slots ++ [v]) = .ok (v, slots) := by
  rw [pop, read_last]
  simp only [List.dropLast_concat]
  rfl

/-- At no distance from the top is the last operand. -/
theorem peek_top (slots : List Value) (v : Value) : peek (slots ++ [v]) 0 = .ok v := by
  simpa [peek] using read_last slots v

/-- At a distance of one from the top is the operand before the last. -/
theorem peek_below (slots : List Value) (v w : Value) : peek (slots ++ [v] ++ [w]) 1 = .ok v := by
  have hindex : (((slots ++ [v] ++ [w]).length : Int) - 1 - (1 : Nat)) = (slots.length : Nat) := by
    simp
    omega
  rw [peek, hindex, read_eq (by simp)]
  simp

/-! ## The operands as a stack -/

/-- The operands of a stack, from its bottom up. -/
def slots (s : Stack) : List Value :=
  s.values.reverse

/-- A value that is pushed is the last operand. -/
@[simp] theorem slots_push (s : Stack) (v : Value) : slots (s.push v) = slots s ++ [v] := by
  simp [slots]

/-- There are as many operands as the stack is high. -/
@[simp] theorem length_slots (s : Stack) : (slots s).length = s.height := by
  simp [slots, s.height_eq]

/-- A turn of the machine, as the machine by indices makes it. -/
def Move.ofTurn : Turn κ → Move κ
  | .go t => .go t.offset (slots t.stack) t.console
  | .stop result k => .stop result k

/-- What an instruction comes to, as the machine by indices has it. -/
def Move.ofPerformed (c : Chunk) (s : State κ) (i : Instr) : Except Trap (Effect κ) → Move κ
  | .error t => .ofTurn (s.trapped c t)
  | .ok e => .ofTurn (s.after i e)

section

variable {o : Options} {c : Chunk} {inst : Nat} {i : Instr} {k : κ} {s : Stack}

/-- A trap is blamed on the line of the instruction, if there is a line for it. -/
theorem blame_eq (h : inst < c.lines.length) (k : κ) (t : Trap) :
    blame c inst k t = .ok (.stop (.error (.fault ⟨t, c.lineOf inst⟩)) k) := by
  have hline : c.lines[inst] = c.lineOf inst :=
    Option.some.inj ((List.getElem?_eq_getElem h).symm.trans (Chunk.lineOf_eq h))
  rw [blame, if_pos h, read_eq h, hline]
  rfl

/-- A push by indices is the push of the machine. -/
theorem push_eq (h : inst < c.lines.length) (s : Stack) (below : Stack) (k : κ) (v : Value) :
    push o c inst (inst + i.size) (slots below) k v =
      .ok (.ofPerformed c ⟨inst, s, k⟩ i (pushing o below k v)) := by
  rcases pushing_cases o below k v with ⟨hge, heq⟩ | ⟨hlt, heq⟩ <;> rw [heq, push]
  · rw [if_pos (by rw [length_slots]; exact hge), blame_eq h]
    rfl
  · rw [if_neg (by rw [length_slots]; omega)]
    simp only [Move.ofPerformed, State.after, Move.ofTurn, slots_push]
    rfl

/-! ## The instruction at an offset -/

/-- The bytes at an offset of the code, read one by one. -/
theorem fetchAt?_eq (h : inst < c.code.length) :
    c.fetchAt? inst = some (fetch c.code[inst] (c.code.drop (inst + 1))) := by
  rw [Chunk.fetchAt?, List.drop_eq_getElem_cons h]

/-- A whole instruction has its opcode in the first byte and its operand in the bytes after it. -/
theorem ofByte?_of_fetch {b : UInt8} {rest : Bytes} (h : fetch b rest = .whole i) :
    Opcode.ofByte? b = some i.op ∧ Instr.readOperand? i.op.width 0 rest = some i.operand := by
  unfold fetch at h
  split at h
  · cases h
  · rename_i op hop
    split at h
    · cases h
    · rename_i n hn
      cases h
      exact ⟨hop, hn⟩

/-- The opcode of an instruction is read at its offset. -/
theorem ofByte?_of_fetchAt? (h : c.fetchAt? inst = some (.whole i)) :
    ∃ b, read c.code inst = .ok b ∧ Opcode.ofByte? b = some i.op := by
  have hlt : inst < c.code.length := Chunk.lt_size_of_fetchAt? h
  rw [fetchAt?_eq hlt] at h
  exact ⟨c.code[inst], read_eq hlt, (ofByte?_of_fetch (Option.some.inj h)).1⟩

/-- An operand of one byte is that byte. -/
theorem read_operand_one (h : c.fetchAt? inst = some (.whole i)) (hwidth : i.op.width = 1) :
    ∃ b : UInt8, read c.code ((inst : Int) + 1) = .ok b ∧ b.toNat = i.operand := by
  have hlt : inst < c.code.length := Chunk.lt_size_of_fetchAt? h
  have hend : inst + i.size ≤ c.code.length := Chunk.add_size_le_of_fetchAt? h
  have hnext : inst + 1 < c.code.length := by
    rw [Instr.size, hwidth] at hend
    omega
  rw [fetchAt?_eq hlt, List.drop_eq_getElem_cons hnext] at h
  have hoperand := (ofByte?_of_fetch (Option.some.inj h)).2
  rw [hwidth] at hoperand
  refine ⟨c.code[inst + 1], ?_, by simpa [Instr.readOperand?] using hoperand⟩
  exact_mod_cast read_eq hnext

/-- An operand of two bytes is their number, the high one first. -/
theorem distance_eq (h : c.fetchAt? inst = some (.whole i)) (hwidth : i.op.width = 2) :
    distance c (inst + 1) = .ok i.operand := by
  have hlt : inst < c.code.length := Chunk.lt_size_of_fetchAt? h
  have hend : inst + i.size ≤ c.code.length := Chunk.add_size_le_of_fetchAt? h
  have hnext : inst + 1 + 1 < c.code.length := by
    rw [Instr.size, hwidth] at hend
    omega
  rw [fetchAt?_eq hlt, List.drop_eq_getElem_cons (Nat.lt_of_succ_lt hnext),
    List.drop_eq_getElem_cons hnext] at h
  have hoperand := (ofByte?_of_fetch (Option.some.inj h)).2
  rw [hwidth] at hoperand
  have hvalue : c.code[inst + 1].toNat * 256 + c.code[inst + 1 + 1].toNat = i.operand := by
    simpa [Instr.readOperand?] using hoperand
  have hhigh := read_eq (Nat.lt_of_succ_lt hnext)
  have hlow := read_eq hnext
  push_cast at hhigh hlow
  rw [distance]
  push_cast
  rw [hhigh, hlow, ← hvalue]
  rfl

/-! ## Each step is a turn -/

/-- With too few operands the machine by indices traps as the machine does. -/
theorem need_of_lt (h : c.fetchAt? inst = some (.whole i)) (hline : inst < c.lines.length) {n : Nat}
    (hheight : s.height < n) (act : Except Breakdown (Move κ)) :
    need c inst (slots s) k n act =
      .ok (.ofPerformed c ⟨inst, s, k⟩ i (.error (.underflow i.op n s.height))) := by
  obtain ⟨b, hb, hop⟩ := ofByte?_of_fetchAt? h
  rw [need, if_pos (by rw [length_slots]; exact hheight), hb]
  dsimp only [bind, Except.bind]
  rw [hop, length_slots]
  exact blame_eq hline k _

/-- With enough operands it acts. -/
theorem need_of_le {n : Nat} (hheight : n ≤ s.height) (act : Except Breakdown (Move κ)) :
    need c inst (slots s) k n act = act := by
  rw [need, if_neg (by rw [length_slots]; omega)]

/-- An instruction that takes one operand. -/
theorem need_one_eq (h : c.fetchAt? inst = some (.whole i)) (hline : inst < c.lines.length)
    {act : Except Breakdown (Move κ)} {f : Value → Stack → Except Trap (Effect κ)}
    (hact : ∀ v below, s = below.push v →
      act = .ok (.ofPerformed c ⟨inst, s, k⟩ i (f v below))) :
    need c inst (slots s) k 1 act =
      .ok (.ofPerformed c ⟨inst, s, k⟩ i (taking i.op s f)) := by
  rcases taking_cases i.op s f with ⟨hzero, heq⟩ | ⟨v, below, hs, heq⟩
  · rw [need_of_lt h hline (by omega), heq, hzero]
  · rw [need_of_le (by rw [hs, Stack.height_push]; omega), heq]
    exact hact v below hs

/-- An instruction that combines two operands. -/
theorem binary_eq (h : c.fetchAt? inst = some (.whole i)) (hline : inst < c.lines.length)
    (f : Value → Value → Except Trap Value) :
    binary o c inst (inst + i.size) (slots s) k f =
      .ok (.ofPerformed c ⟨inst, s, k⟩ i (combining o i.op s k f)) := by
  rcases combining_cases o i.op s k f with ⟨hlt, heq⟩ | ⟨v, w, below, hs, hf⟩
  · rw [binary, need_of_lt h hline hlt, heq]
  · rw [binary, need_of_le (by rw [hs]; simp)]
    have hslots : slots s = slots below ++ [v] ++ [w] := by rw [hs, slots_push, slots_push]
    rw [hslots, peek_below, peek_top]
    rcases hf with ⟨t, ht, heq⟩ | ⟨u, hu, heq⟩
    · rw [heq]
      simp only [bind, Except.bind, ht]
      exact blame_eq hline k t
    · rw [heq]
      simp only [bind, Except.bind, hu, pop_append]
      exact push_eq hline s below k u

/-- Looking for a zero divisor ahead of a division comes to the same as looking for it within. -/
theorem act_div_eq [Sink κ] (h : c.fetchAt? inst = some (.whole i))
    (hline : inst < c.lines.length) :
    act o c inst (inst + i.size) (slots s) k .div =
      .ok (.ofPerformed c ⟨inst, s, k⟩ i (combining o i.op s k (quotient o))) := by
  by_cases hstrict : o.strictDivision
  · rcases combining_cases o i.op s k (quotient o) with ⟨hlt, heq⟩ | ⟨v, w, below, rfl, -⟩
    · have hlength : ¬2 ≤ (slots s).length := by rw [length_slots]; omega
      simp only [act, hlength, decide_false, Bool.and_false, Bool.false_eq_true, if_false, bind,
        Except.bind, pure, Except.pure]
      rw [heq, binary, need_of_lt h hline hlt]
    · have hlength : 2 ≤ (slots ((below.push v).push w)).length := by
        rw [length_slots]
        simp
      simp only [act, hlength, hstrict, decide_true, Bool.and_true, if_true]
      have hslots : slots ((below.push v).push w) = slots below ++ [v] ++ [w] := by simp
      rw [hslots, peek_below, peek_top, ← hslots]
      dsimp only [bind, Except.bind, pure, Except.pure]
      by_cases hzero : (v.isNumber && w.isZero) = true
      · have hquotient : quotient o v w = .error .zeroDivisor := by
          rw [quotient, hstrict, Bool.true_and, if_pos hzero]
        rw [if_pos hzero, combining_push, hquotient, blame_eq hline]
        rfl
      · have hquotient : quotient o v w = numeric Value.div? v w := by
          rw [quotient, hstrict, Bool.true_and, if_neg hzero]
        rw [if_neg hzero, binary_eq h hline, combining_push, combining_push, hquotient]
  · have hquotient : quotient o = numeric Value.div? := by
      funext v w
      simp [quotient, hstrict]
    simp only [act, hstrict, Bool.false_and, Bool.false_eq_true, if_false, bind, Except.bind, pure,
      Except.pure]
    rw [hquotient, binary_eq h hline]

/-- A constant is looked up by its index as the machine does it. -/
theorem act_const_eq [Sink κ] {n : Nat} (h : c.fetchAt? inst = some (.whole ⟨.const, n⟩))
    (hline : inst < c.lines.length) :
    act o c inst (inst + 2) (slots s) k .const =
      .ok (.ofPerformed c ⟨inst, s, k⟩ ⟨.const, n⟩ (perform o c.consts ⟨.const, n⟩ s k)) := by
  obtain ⟨b, hread, hb⟩ := read_operand_one h rfl
  rw [act, hread]
  dsimp only [bind, Except.bind]
  have hb : b.toNat = n := hb
  rw [hb]
  by_cases hn : c.consts.length ≤ n
  · have hnone : c.consts[n]? = none := List.getElem?_eq_none hn
    rw [if_pos hn, blame_eq hline, perform, hnone]
    rfl
  · have hlt : n < c.consts.length := Nat.lt_of_not_le hn
    rw [if_neg hn, read_eq hlt]
    have hperform : perform o c.consts ⟨.const, n⟩ s k = pushing o s k c.consts[n] := by
      rw [perform, List.getElem?_eq_getElem hlt]
    rw [hperform]
    exact push_eq (i := ⟨.const, n⟩) hline s s k c.consts[n]

/-- The machine by indices executes a whole instruction as the machine does. -/
theorem act_eq [Sink κ] (h : c.fetchAt? inst = some (.whole i)) (hline : inst < c.lines.length) :
    act o c inst (inst + i.size) (slots s) k i.op =
      .ok (.ofPerformed c ⟨inst, s, k⟩ i (perform o c.consts i s k)) := by
  obtain ⟨op, n⟩ := i
  cases op
  case const => exact act_const_eq h hline
  case pushNil | pushTrue | pushFalse => exact push_eq hline s s k _
  case equal => exact binary_eq h hline fun v w => .ok (.bool (v.equals w))
  case greater | less | add | sub | mul => exact binary_eq h hline _
  case div => exact act_div_eq h hline
  case jump =>
    rw [act, distance_eq h rfl]
    rfl
  -- the rest take one operand off
  all_goals
    rw [act, perform]
    refine need_one_eq h hline ?_
    rintro v below rfl
    rw [slots_push]
  case ret =>
    rw [pop_append]
    rfl
  case pop =>
    rw [pop_append]
    rfl
  case not =>
    rw [pop_append]
    exact push_eq hline _ below k _
  case negate =>
    rw [peek_top]
    simp only [bind, Except.bind]
    cases v.negate? with
    | none => exact blame_eq hline k _
    | some w =>
      rw [pop_append]
      exact push_eq hline _ below k w
  case print =>
    rw [pop_append]
    simp only [bind, Except.bind]
    rcases Sink.write k (v.printed ++ [0x0A]) with ⟨k', _ | reason⟩ <;> rfl
  case jumpIfFalse =>
    rw [peek_top]
    simp only [bind, Except.bind]
    cases v.isTruthy with
    | true => simp [Move.ofPerformed, State.after, Move.ofTurn, pure, Except.pure]
    | false =>
      rw [distance_eq h rfl]
      simp [Move.ofPerformed, State.after, Move.ofTurn, pure, Except.pure]

/-- The machine by indices makes the turns of the machine. -/
theorem step_eq [Sink κ] (hlines : c.lines.length = c.code.length) (hinst : inst < c.code.length) :
    step o c inst (slots s) k = .ok (.ofTurn (turn o c ⟨inst, s, k⟩)) := by
  have hline : inst < c.lines.length := by omega
  rw [step, read_eq hinst]
  dsimp only [bind, Except.bind]
  have hfetch := fetchAt?_eq hinst
  cases hop : Opcode.ofByte? c.code[inst] with
  | none =>
    have hunknown : c.fetchAt? inst = some (.unknown c.code[inst]) := by
      rw [hfetch, fetch, hop]
    simp only [turn, hunknown]
    exact blame_eq hline k _
  | some op =>
    dsimp only
    cases hoperand : Instr.readOperand? op.width 0 (c.code.drop (inst + 1)) with
    | none =>
      have htruncated : c.fetchAt? inst = some (.truncated op) := by
        simp only [hfetch, fetch, hop, hoperand]
      have hshort : c.code.length < inst + 1 + op.width := by
        have hlt := Instr.length_lt_of_readOperand? hoperand
        rw [List.length_drop] at hlt
        omega
      simp only [turn, htruncated]
      rw [if_pos hshort]
      exact blame_eq hline k _
    | some n =>
      have hwhole : c.fetchAt? inst = some (.whole ⟨op, n⟩) := by
        simp only [hfetch, fetch, hop, hoperand]
      have hend : inst + (op.width + 1) ≤ c.code.length := Chunk.add_size_le_of_fetchAt? hwhole
      have hact := act_eq (o := o) (s := s) (k := k) hwhole hline
      have hnext : inst + 1 + op.width = inst + (⟨op, n⟩ : Instr).size := by
        simp only [Instr.size]
        omega
      rw [if_neg (by omega), hnext, hact]
      simp only [turn, hwhole]
      cases perform o c.consts ⟨op, n⟩ s k <;> rfl

/-! ## The trace -/

/-- The operand of an instruction is read by the width of its opcode. -/
theorem operand_eq (h : c.fetchAt? inst = some (.whole i)) :
    operand c (inst + 1) i.op.width = .ok i.operand := by
  obtain ⟨op, n⟩ := i
  have hnullary : op.width = 0 → n = 0 := by
    intro hwidth
    have hlt : inst < c.code.length := Chunk.lt_size_of_fetchAt? h
    rw [fetchAt?_eq hlt] at h
    have hoperand := (ofByte?_of_fetch (Option.some.inj h)).2
    simp only [hwidth, Instr.readOperand?, Option.some.injEq] at hoperand
    exact hoperand.symm
  cases op
  case const =>
    obtain ⟨b, hread, hb⟩ := read_operand_one h rfl
    have hread' : read c.code ((inst + 1 : Nat) : Int) = .ok b := by exact_mod_cast hread
    rw [Opcode.width, operand, hread']
    exact congrArg Except.ok hb
  case jump | jumpIfFalse => exact distance_eq h rfl
  all_goals
    obtain rfl := hnullary rfl
    rfl

/-- What the listing finds at an offset is what is fetched there. -/
theorem inspect_eq (hinst : inst < c.code.length) {f : Fetched}
    (h : c.fetchAt? inst = some f) : inspect c inst = .ok f := by
  rw [inspect, read_eq hinst]
  dsimp only [bind, Except.bind]
  rw [fetchAt?_eq hinst] at h
  have hf := Option.some.inj h
  unfold fetch at hf
  cases hop : Opcode.ofByte? c.code[inst] with
  | none =>
    rw [hop] at hf
    exact congrArg Except.ok hf
  | some op =>
    rw [hop] at hf
    dsimp only at hf ⊢
    cases hoperand : Instr.readOperand? op.width 0 (c.code.drop (inst + 1)) with
    | none =>
      rw [hoperand] at hf
      have hshort : c.code.length ≤ inst + op.width := by
        have hlt := Instr.length_lt_of_readOperand? hoperand
        rw [List.length_drop] at hlt
        omega
      rw [if_pos hshort]
      exact congrArg Except.ok hf
    | some n =>
      rw [hoperand] at hf
      have hwhole : c.fetchAt? inst = some (.whole ⟨op, n⟩) := by
        simp only [fetchAt?_eq hinst, fetch, hop, hoperand]
      have hend : inst + (op.width + 1) ≤ c.code.length := Chunk.add_size_le_of_fetchAt? hwhole
      rw [if_neg (by omega), operand_eq hwhole, ← hf]
      by_cases hconst : n < c.consts.length
      · simp only [hconst, decide_true, Bool.and_true, read_eq hconst]
        split <;> rfl
      · simp only [hconst, decide_false, Bool.and_false]
        rfl

/-- The line of the listing for an offset is read without going out of range. -/
theorem listed_eq (hlines : c.lines.length = c.code.length) (hinst : inst < c.code.length)
    {f : Fetched} (h : c.fetchAt? inst = some f) :
    listed c inst =
      .ok (Chunk.instrLine c.consts inst (c.lineBefore? inst) (c.lineOf inst) f) := by
  have hline : inst < c.lines.length := by omega
  have hlineOf : c.lines[inst] = c.lineOf inst :=
    Option.some.inj ((List.getElem?_eq_getElem hline).symm.trans (Chunk.lineOf_eq hline))
  rw [listed, read_eq hline, hlineOf, inspect_eq hinst h]
  cases inst with
  | zero => rfl
  | succ n =>
    have hbefore : read c.lines (((n + 1 : Nat) : Int) - 1) = .ok c.lines[n] := by
      have hindex : ((n + 1 : Nat) : Int) - 1 = (n : Nat) := by omega
      rw [hindex, read_eq (by omega)]
    have hbefore? : c.lineBefore? (n + 1) = some c.lines[n] := by
      simp only [Chunk.lineBefore?, Nat.add_one_ne_zero, if_false, Nat.add_sub_cancel]
      exact List.getElem?_eq_getElem (by omega)
    simp only [Nat.succ_pos, if_true, hbefore, hbefore?]
    rfl

/-- The trace by indices is the log of the machine. -/
theorem trace_eq [Sink κ] (hlines : c.lines.length = c.code.length)
    (hinst : inst < c.code.length) (log : List Log.Entry) :
    trace o c inst (slots s) log = .ok (logAt o c ⟨inst, s, k⟩ log) := by
  obtain ⟨f, hf⟩ : ∃ f, c.fetchAt? inst = some f := ⟨_, fetchAt?_eq hinst⟩
  simp only [trace, logAt, traced, hf]
  by_cases htrace : o.trace
  · rw [if_pos htrace, if_pos htrace, listed_eq hlines hinst hf]
    rfl
  · rw [if_neg htrace, if_neg htrace]
    rfl

/-- The line of the last byte is read without going out of range. -/
theorem lastLine_eq (c : Chunk) : lastLine c = .ok c.lastLine := by
  unfold lastLine Chunk.lastLine
  rcases List.eq_nil_or_concat c.lines with hnil | ⟨lines, line, hlines⟩
  · rw [hnil]
    rfl
  · rw [hlines, if_pos (by simp), List.concat_eq_append, read_last]
    simp

/-! ## Whole runs -/

/-- From any state, the machine by indices comes to what the machine comes to, if it is allowed as
many instructions as there are bytes left. -/
theorem loop_eq [Sink κ] (hlines : c.lines.length = c.code.length) (allowed : Nat) (inst : Nat)
    (s : Stack) (k : κ) (log : List Log.Entry) (hallowed : c.code.length ≤ inst + allowed) :
    loop o c allowed inst (slots s) k log = .ok (resume o c ⟨inst, s, k⟩ log) := by
  induction allowed generalizing inst s k log with
  | zero =>
    have hend : c.fetchAt? inst = none := Chunk.fetchAt?_eq_none_iff.mpr hallowed
    rw [Nat.add_zero] at hallowed
    rw [loop, if_pos hallowed, lastLine_eq, resume_eq_turn]
    simp only [turn, logAt, hend]
    rfl
  | succ allowed ih =>
    by_cases hinst : c.code.length ≤ inst
    · have hend : c.fetchAt? inst = none := Chunk.fetchAt?_eq_none_iff.mpr hinst
      rw [loop, if_pos hinst, lastLine_eq, resume_eq_turn]
      simp only [turn, logAt, hend]
      rfl
    · have hlt : inst < c.code.length := Nat.lt_of_not_le hinst
      rw [loop, if_neg hinst, trace_eq (k := k) hlines hlt, resume_eq_turn]
      simp only [bind, Except.bind, step_eq hlines hlt]
      rcases hturn : turn o c ⟨inst, s, k⟩ with t | ⟨result, k'⟩
      · have hmove := (offset_lt_of_go hturn).1
        exact ih t.offset t.stack t.console _ (by simp only at hmove; omega)
      · rfl

/-- When every byte of code has a line, a run by indices never reads out of range and executes at
most one instruction for each byte. It comes to what the run comes to. -/
theorem run_eq [Sink κ] (hlines : c.lines.length = c.code.length) (k : κ) :
    run o c c.size k = .ok (Machine.run o c k) :=
  loop_eq hlines c.size 0 .empty k [] (by simp [Chunk.size])

end

end Lox.Machine.Indexed
