import Lox.Proofs.Correctness

/-!
# Code with a level for each instruction

The height of the stack before an instruction of compiled code does not depend on how a run gets
there. `Levelled h is` says so of a sequence of instructions that ends a chunk: entered with `h`
values on the stack, each instruction finds its operands whatever the jumps before it do, every jump
lands on a later instruction of the sequence, at the level that this one has anyway, and the last
instruction is the only return and finds one value.

The relation follows the code from its end, as the compiler makes it. A jump is sound on account of
what is already there: `levelled_codeThen` puts the code of an expression before any code that is
entered one level higher, and the operand of its jumps is the size of what lies between.

* `Levelled.unique`: the level is given by the instructions alone.
* `exists_composed_of_compile`: the chunk of an accepted source is made of levelled instructions
  that can be read back.
-/

namespace Lox

open Grammar

namespace Opcode

/-- Whether an instruction is always followed by the next one. -/
def isPlain : Opcode → Bool
  | ret | jump | jumpIfFalse => false
  | _ => true

end Opcode

/-! ## Sequences of instructions -/

/-- The instructions of some code. -/
def Code.instrs (k : Code) : List Instr :=
  k.placed.map Placed.instr

/-- The bytes of some code are the spellings of its instructions. -/
theorem Code.bytes_eq (k : Code) : k.bytes = k.instrs.flatMap Instr.encode := by
  rw [bytes, instrs, List.flatMap_map]

/-- Instructions put in front come first. -/
@[simp] theorem Code.instrs_prepend (after : Code) (line : Int) (is : List Instr) :
    (after.prepend line is).instrs = is ++ after.instrs := by
  simp [instrs, prepend, Function.comp_def]

/-- The sizes of two sequences add up. -/
theorem sizeOfAll_append (is js : List Instr) :
    sizeOfAll (is ++ js) = sizeOfAll is + sizeOfAll js := by
  induction is with
  | nil => simp [sizeOfAll]
  | cons i is ih =>
    simp only [sizeOfAll, List.cons_append, List.foldr_cons] at ih ⊢
    omega

/-- The size of a sequence begins with that of its first instruction. -/
theorem sizeOfAll_cons (i : Instr) (is : List Instr) :
    sizeOfAll (i :: is) = i.size + sizeOfAll is := rfl

/-- The size of a sequence ends with that of its last instruction. -/
theorem sizeOfAll_concat (is : List Instr) (i : Instr) :
    sizeOfAll (is ++ [i]) = sizeOfAll is + i.size :=
  sizeOfAll_append is [i]

/-- The bytes of a sequence are as many as its size says. -/
theorem length_flatMap_encode (is : List Instr) :
    (is.flatMap Instr.encode).length = sizeOfAll is := by
  induction is with
  | nil => rfl
  | cons i is ih =>
    rw [List.flatMap_cons, List.length_append, Instr.length_encode, ih, sizeOfAll_cons]

/-- A sequence is cut at a number of bytes in one way only. -/
theorem append_inj_of_sizeOfAll {is js is' js' : List Instr} (h : is ++ js = is' ++ js')
    (hsize : sizeOfAll is = sizeOfAll is') : is = is' ∧ js = js' := by
  induction is generalizing is' with
  | nil =>
    cases is' with
    | nil => exact ⟨rfl, h⟩
    | cons i is' =>
      rw [sizeOfAll_cons, Instr.size] at hsize
      simp only [sizeOfAll, List.foldr_nil] at hsize
      omega
  | cons i is ih =>
    cases is' with
    | nil =>
      rw [sizeOfAll_cons, Instr.size] at hsize
      simp only [sizeOfAll, List.foldr_nil] at hsize
      omega
    | cons i' is' =>
      obtain ⟨rfl, htail⟩ := List.cons.inj h
      obtain ⟨rfl, rfl⟩ := ih htail (by simpa [sizeOfAll_cons] using hsize)
      exact ⟨rfl, rfl⟩

/-! ## Levels -/

/-- Entered at a height of the stack, the instructions find their operands on every path, and return
the only value left. -/
inductive Levelled : Nat → List Instr → Prop where
  /-- The return, at the end. -/
  | ret {i : Instr} : i.op = .ret → Levelled 1 [i]
  /-- An instruction that puts its results in the place of its operands. -/
  | plain {h l : Nat} {i : Instr} {is : List Instr} : i.op.isPlain = true → i.op.needs ≤ h →
      l + i.op.needs = h + i.op.leaves → Levelled l is → Levelled h (i :: is)
  /-- A jump. What it leaps over is entered from elsewhere, at a level of its own. -/
  | jump {h l : Nat} {i : Instr} {is skipped rest : List Instr} : i.op = .jump →
      is = skipped ++ rest → sizeOfAll skipped = i.operand → Levelled h rest → Levelled l is →
      Levelled h (i :: is)
  /-- A jump on a condition, which stays on the stack either way. -/
  | branch {h : Nat} {i : Instr} {is skipped rest : List Instr} : i.op = .jumpIfFalse → 0 < h →
      is = skipped ++ rest → sizeOfAll skipped = i.operand → Levelled h rest → Levelled h is →
      Levelled h (i :: is)

namespace Levelled

variable {h l : Nat} {i : Instr} {is : List Instr}

/-- There is at least the return. -/
theorem ne_nil (hl : Levelled h is) : is ≠ [] := by
  cases hl <;> exact List.cons_ne_nil _ _

/-- The level is given by the instructions. -/
theorem unique (hl : Levelled h is) (hl' : Levelled l is) : h = l := by
  induction hl generalizing l with
  | ret hop =>
    cases hl' with
    | ret => rfl
    | plain hplain => simp [hop, Opcode.isPlain] at hplain
    | jump hop' => simp [hop] at hop'
    | branch hop' => simp [hop] at hop'
  | plain hplain _ hheight _ ih =>
    cases hl' with
    | ret hop => simp [hop, Opcode.isPlain] at hplain
    | plain _ _ hheight' hrest =>
      have := ih hrest
      omega
    | jump hop => simp [hop, Opcode.isPlain] at hplain
    | branch hop => simp [hop, Opcode.isPlain] at hplain
  | jump hop his hsize hrest _ ih _ =>
    cases hl' with
    | ret hop' => simp [hop] at hop'
    | plain hplain => simp [hop, Opcode.isPlain] at hplain
    | jump _ his' hsize' hrest' _ =>
      obtain ⟨-, rfl⟩ := append_inj_of_sizeOfAll (his.symm.trans his') (hsize.trans hsize'.symm)
      exact ih hrest'
    | branch hop' => simp [hop] at hop'
  | branch hop _ _ _ _ _ _ ih =>
    cases hl' with
    | ret hop' => simp [hop] at hop'
    | plain hplain => simp [hop, Opcode.isPlain] at hplain
    | jump hop' => simp [hop] at hop'
    | branch _ _ _ _ _ his => exact ih his

/-- There are enough operands, and a return finds one. -/
theorem needs_le (hl : Levelled h (i :: is)) :
    i.op.needs ≤ h ∧ (i.op = .ret → h = 1 ∧ is = []) := by
  cases hl with
  | ret hop => simp [hop, Opcode.needs]
  | plain hplain hneeds => exact ⟨hneeds, fun hop => by simp [hop, Opcode.isPlain] at hplain⟩
  | jump hop => simp [hop, Opcode.needs]
  | branch hop hpos => exact ⟨by rw [hop]; exact hpos, fun hret => by simp [hop] at hret⟩

/-- What comes after an instruction that does not jump is entered with its result. -/
theorem next (hl : Levelled h (i :: is)) (hret : i.op ≠ .ret) (hjump : i.op ≠ .jump)
    (hheight : l + i.op.needs = h + i.op.leaves) : Levelled l is := by
  cases hl with
  | ret hop => exact absurd hop hret
  | @plain _ l' _ _ _ _ hheight' hrest =>
    obtain rfl : l = l' := by omega
    exact hrest
  | jump hop => exact absurd hop hjump
  | branch hop _ _ _ _ hrest =>
    obtain rfl : l = h := by
      simp only [hop, Opcode.needs, Opcode.leaves] at hheight
      omega
    exact hrest

/-- A jump lands on an instruction, which is entered at the same level. -/
theorem leap (hl : Levelled h (i :: is)) (hop : i.op = .jump ∨ i.op = .jumpIfFalse) :
    ∃ skipped rest, is = skipped ++ rest ∧ sizeOfAll skipped = i.operand ∧ Levelled h rest := by
  cases hl with
  | ret hop' => simp [hop'] at hop
  | plain hplain => rcases hop with hop | hop <;> simp [hop, Opcode.isPlain] at hplain
  | jump _ his hsize hrest _ => exact ⟨_, _, his, hsize, hrest⟩
  | branch _ _ his hsize hrest _ => exact ⟨_, _, his, hsize, hrest⟩

/-- What comes after an instruction has a level, unless it was the last. -/
theorem tail (hl : Levelled h (i :: is)) : is = [] ∨ ∃ l, Levelled l is := by
  cases hl with
  | ret => exact .inl rfl
  | plain _ _ _ hrest => exact .inr ⟨_, hrest⟩
  | jump _ _ _ _ hrest => exact .inr ⟨_, hrest⟩
  | branch _ _ _ _ _ hrest => exact .inr ⟨_, hrest⟩

/-- Every instruction has a level. -/
theorem exists_drop {front : List Instr} (hl : Levelled h (front ++ i :: is)) :
    ∃ l, Levelled l (i :: is) := by
  induction front generalizing h with
  | nil => exact ⟨h, hl⟩
  | cons j front ih =>
    rcases hl.tail with hnil | ⟨l, hrest⟩
    · simp at hnil
    · exact ih hrest

/-- The last instruction is a return, and no other is. -/
theorem exists_ret (hl : Levelled h is) :
    ∃ front last, is = front ++ [last] ∧ last.op = .ret ∧ ∀ i ∈ front, i.op ≠ .ret := by
  induction hl with
  | @ret i hop => exact ⟨[], i, rfl, hop, by simp⟩
  | @plain h l i is hplain _ _ _ ih =>
    obtain ⟨front, last, rfl, hlast, hfront⟩ := ih
    refine ⟨i :: front, last, rfl, hlast, List.forall_mem_cons.mpr ⟨?_, hfront⟩⟩
    intro hop
    simp [hop, Opcode.isPlain] at hplain
  | @jump h l i is skipped rest hop _ _ _ _ _ ih | @branch h i is skipped rest hop _ _ _ _ _ _ ih =>
    obtain ⟨front, last, rfl, hlast, hfront⟩ := ih
    refine ⟨i :: front, last, rfl, hlast, List.forall_mem_cons.mpr ⟨?_, hfront⟩⟩
    rw [hop]
    decide

end Levelled

/-! ## The code of expressions -/

variable {pool : Pool} {d : Nat} {after : Code}

/-- A push enters what follows one value higher. -/
theorem levelled_push (v : Value) {is : List Instr} (h : Levelled (d + 1) is) :
    Levelled d (Expr.push pool v :: is) := by
  cases v with
  | bool b => cases b <;> exact .plain rfl (Nat.zero_le _) rfl h
  | _ => exact .plain rfl (Nat.zero_le _) rfl h

/-- A unary operator leaves the level as it is. -/
theorem levelled_unary (op : UnaryOp) {is : List Instr} (h : Levelled (d + 1) is) :
    Levelled (d + 1) (⟨op.opcode, 0⟩ :: is) := by
  cases op <;> exact .plain rfl (Nat.le_add_left ..) rfl h

/-- A binary operator, with its negation if it has one, leaves one value in the place of two. -/
theorem levelled_binary (op : BinaryOp) {is : List Instr} (h : Levelled (d + 1) is) :
    Levelled (d + 2) (op.opcodes.map (⟨·, 0⟩) ++ is) := by
  have hnot : Levelled (d + 1) (⟨.not, 0⟩ :: is) := levelled_unary .not h
  cases op
  case notEqual | greaterEqual | lessEqual => exact .plain rfl (Nat.le_add_left ..) rfl hnot
  all_goals exact .plain rfl (Nat.le_add_left ..) rfl h

/-- The instructions of a logical operator: the left value is dropped before the right operand, and
is what there is to go on with when that is leapt over. -/
theorem levelled_logic (op : LogicOp) {is rest : List Instr} {n : Nat} (hsize : sizeOfAll is = n)
    (hleap : n < Expr.maxLeap) (hright : Levelled d (is ++ rest)) (hrest : Levelled (d + 1) rest) :
    Levelled (d + 1) (Expr.logicCode op n ++ (is ++ rest)) := by
  have hmin : min (n + 1) Expr.maxLeap = n + 1 := Nat.min_eq_left hleap
  have hpop : Levelled (d + 1) (⟨.pop, 0⟩ :: (is ++ rest)) :=
    .plain rfl (Nat.le_add_left ..) rfl hright
  have hsplit : (⟨.pop, 0⟩ : Instr) :: (is ++ rest) = (⟨.pop, 0⟩ :: is) ++ rest := rfl
  have hskipped : sizeOfAll (⟨.pop, 0⟩ :: is) = n + 1 := by
    rw [sizeOfAll_cons, hsize]
    exact Nat.add_comm ..
  cases op with
  | and =>
    rw [Expr.logicCode, hmin]
    exact .branch rfl (Nat.succ_pos d) hsplit hskipped hrest hpop
  | or =>
    rw [Expr.logicCode, hmin]
    have hjump : Levelled (d + 1) (⟨.jump, n + 1⟩ :: ⟨.pop, 0⟩ :: (is ++ rest)) :=
      .jump rfl hsplit hskipped hrest hpop
    exact .branch rfl (Nat.succ_pos d) (List.singleton_append ..).symm rfl hpop hjump

/-- An expression's code stands before the instructions that follow it. -/
theorem Expr.exists_instrs_codeThen (pool : Pool) (e : Expr) (after : Code) :
    ∃ is, (e.codeThen pool after).instrs = is ++ after.instrs ∧ sizeOfAll is = e.size := by
  induction e generalizing after with
  | literal c v =>
    refine ⟨[push pool v], Code.instrs_prepend .., ?_⟩
    simp [sizeOfAll, size, sizeThen, size_push]
  | missing c => exact ⟨[], rfl, rfl⟩
  | group c e closing ih => exact ih after
  | unary op c e ih =>
    obtain ⟨is, his, hsize⟩ := ih (after.prepend c.line [⟨op.opcode, 0⟩])
    refine ⟨is ++ [⟨op.opcode, 0⟩], by simp [codeThen, his], ?_⟩
    rw [sizeOfAll_append, hsize, size_unary]
    cases op <;> rfl
  | binary op c l r ihl ihr =>
    obtain ⟨js, hjs, hjsize⟩ := ihr (after.prepend c.line (op.opcodes.map (⟨·, 0⟩)))
    obtain ⟨is, his, hisize⟩ :=
      ihl (r.codeThen pool (after.prepend c.line (op.opcodes.map (⟨·, 0⟩))))
    refine ⟨is ++ (js ++ op.opcodes.map (⟨·, 0⟩)), by simp [codeThen, his, hjs], ?_⟩
    rw [sizeOfAll_append, sizeOfAll_append, hisize, hjsize, sizeOfAll_opcodes, size_binary]
  | logic op c l r ihl ihr =>
    obtain ⟨js, hjs, hjsize⟩ := ihr after
    obtain ⟨is, his, hisize⟩ :=
      ihl ((r.codeThen pool after).prepend c.line (logicCode op r.size))
    refine ⟨is ++ (logicCode op r.size ++ js), by simp [codeThen_logic, his, hjs], ?_⟩
    rw [sizeOfAll_append, sizeOfAll_append, hisize, hjsize, sizeOfAll_logicCode, size_logic]

/-- The code of an expression leaves one value more than there were. -/
theorem levelled_codeThen {slot : Value → Prop} {e : Tree} (he : e.Fits slot)
    (h : Levelled (d + 1) after.instrs) : Levelled d (e.expr.codeThen pool after).instrs := by
  induction e generalizing d after with
  | literal t v =>
    rw [Tree.expr, Expr.codeThen, Code.instrs_prepend]
    exact levelled_push v h
  | group l e r ih => exact ih (Tree.fits_group_iff.mp he) h
  | unary op t e ih =>
    refine ih (Tree.fits_unary_iff.mp he) ?_
    rw [Code.instrs_prepend]
    exact levelled_unary op h
  | binary op t l r ihl ihr =>
    obtain ⟨hl, hr⟩ := Tree.fits_binary_iff.mp he
    refine ihl hl (ihr hr ?_)
    rw [Code.instrs_prepend]
    exact levelled_binary op h
  | logic op t l r ihl ihr =>
    obtain ⟨⟨hl, hr⟩, hleap⟩ := Tree.fits_logic_iff.mp he
    obtain ⟨is, his, hsize⟩ := r.expr.exists_instrs_codeThen pool after
    have hright := ihr hr h
    rw [Tree.expr, Expr.codeThen_logic]
    refine ihl hl ?_
    rw [Code.instrs_prepend]
    rw [his] at hright ⊢
    exact levelled_logic op hsize hleap hright h

/-! ## Operands -/

/-- The operand of an instruction fits its bytes and, if it names a constant, that exists. -/
structure Instr.Valid (count : Nat) (i : Instr) : Prop where
  fits : i.Fits
  const_lt : i.op = .const → i.operand < count

namespace Instr

variable {count : Nat}

/-- An instruction without an operand is valid. -/
theorem valid_of_width {op : Opcode} (h : op.width = 0) : (⟨op, 0⟩ : Instr).Valid count := by
  refine ⟨Machine.fits_of_width h, ?_⟩
  rintro rfl
  cases h

/-- A jump within the greatest distance is valid. -/
theorem valid_leap {op : Opcode} {m : Nat} (hop : op.width = 2) (hm : m ≤ Expr.maxLeap) :
    (⟨op, m⟩ : Instr).Valid count := by
  refine ⟨Machine.fits_leap hop hm, ?_⟩
  rintro rfl
  cases hop

/-- The instruction that pushes a literal is valid if the literal stands in its slot. -/
theorem valid_push {v : Value} (hv : Machine.Stored pool v) (hpool : pool.length ≤ Pool.capacity) :
    (Expr.push pool v).Valid pool.length := by
  cases v with
  | nil => exact valid_of_width rfl
  | bool b => cases b <;> exact valid_of_width rfl
  | number x | text bs =>
    obtain ⟨hlt, -⟩ := List.getElem?_eq_some_iff.mp (hv rfl)
    exact ⟨Nat.lt_of_lt_of_le hlt hpool, fun _ => hlt⟩

/-- The instructions of a binary operator are valid. -/
theorem valid_opcodes (op : BinaryOp) :
    ∀ i ∈ op.opcodes.map (⟨·, 0⟩), (i : Instr).Valid count := by
  intro i hi
  obtain ⟨opcode, hopcode, rfl⟩ := List.mem_map.mp hi
  refine valid_of_width ?_
  cases op <;>
    simp only [BinaryOp.opcodes, List.mem_cons, List.not_mem_nil, or_false] at hopcode <;>
    rcases hopcode with rfl | rfl <;> rfl

/-- The instructions of a logical operator are valid, as its distance never exceeds the greatest
one. -/
theorem valid_logicCode (op : LogicOp) (n : Nat) : ∀ i ∈ Expr.logicCode op n, i.Valid count := by
  have hleap : min (n + 1) Expr.maxLeap ≤ Expr.maxLeap := Nat.min_le_right ..
  cases op with
  | and =>
    simp only [Expr.logicCode, List.forall_mem_cons]
    exact ⟨valid_leap rfl hleap, valid_of_width rfl, List.forall_mem_nil _⟩
  | or =>
    simp only [Expr.logicCode, List.forall_mem_cons]
    exact ⟨valid_leap rfl (by decide), valid_leap rfl hleap, valid_of_width rfl,
      List.forall_mem_nil _⟩

end Instr

/-- The instructions of an expression are valid if its literals stand in their slots. -/
theorem valid_codeThen {e : Tree} (he : e.Fits (Machine.Stored pool))
    (hpool : pool.length ≤ Pool.capacity) (h : ∀ i ∈ after.instrs, i.Valid pool.length) :
    ∀ i ∈ (e.expr.codeThen pool after).instrs, i.Valid pool.length := by
  induction e generalizing after with
  | literal t v =>
    rw [Tree.expr, Expr.codeThen, Code.instrs_prepend]
    exact List.forall_mem_cons.mpr ⟨Instr.valid_push (Tree.fits_literal_iff.mp he) hpool, h⟩
  | group l e r ih => exact ih (Tree.fits_group_iff.mp he) h
  | unary op t e ih =>
    refine ih (Tree.fits_unary_iff.mp he) ?_
    rw [Code.instrs_prepend]
    exact List.forall_mem_cons.mpr ⟨Instr.valid_of_width (by cases op <;> rfl), h⟩
  | binary op t l r ihl ihr =>
    obtain ⟨hl, hr⟩ := Tree.fits_binary_iff.mp he
    refine ihl hl (ihr hr ?_)
    rw [Code.instrs_prepend]
    exact List.forall_mem_append.mpr ⟨Instr.valid_opcodes op, h⟩
  | logic op t l r ihl ihr =>
    obtain ⟨⟨hl, hr⟩, -⟩ := Tree.fits_logic_iff.mp he
    rw [Tree.expr, Expr.codeThen_logic]
    refine ihl hl ?_
    rw [Code.instrs_prepend]
    exact List.forall_mem_append.mpr ⟨Instr.valid_logicCode op _, ihr hr h⟩

/-! ## The code of programs -/

/-- All that can become of the value of a statement, and what is left on the stack by it. -/
theorem useOfSentence_cases (σ : Sentence) (p : List Sentence) :
    (∃ op line, (op = .print ∨ op = .pop) ∧ Machine.givesResult (σ :: p) = Machine.givesResult p ∧
      ∀ after, (Program.useOfSentence p.isEmpty σ).codeThen after =
        after.prepend line [⟨op, 0⟩]) ∨
      (p = [] ∧ Machine.givesResult (σ :: p) = true ∧
        ∀ after, (Program.useOfSentence p.isEmpty σ).codeThen after = after) := by
  cases σ with
  | print w e s => exact .inl ⟨.print, s.line, .inl rfl, rfl, fun _ => rfl⟩
  | expr e s? =>
    cases p with
    | nil => exact .inr ⟨rfl, rfl, fun _ => rfl⟩
    | cons τ p => exact .inl ⟨.pop, _, .inr rfl, rfl, fun _ => rfl⟩

/-- A program runs on the empty stack and leaves its result alone on it. -/
theorem levelled_sentencesThen {slot : Value → Prop} {p : List Sentence}
    (hp : ∀ σ ∈ p, σ.tree.Fits slot) (endLine : Nat) :
    Levelled 0 (Machine.sentencesThen pool
      (Machine.returnCode endLine (Machine.givesResult p)) p).instrs := by
  have hret : Levelled 1 [⟨.ret, 0⟩] := .ret rfl
  induction p with
  | nil => exact .plain rfl (Nat.zero_le _) rfl hret
  | cons σ p ih =>
    have hrest := ih fun τ hτ => hp τ (List.mem_cons_of_mem _ hτ)
    refine levelled_codeThen (hp σ List.mem_cons_self) ?_
    rcases useOfSentence_cases σ p with ⟨op, line, hop, hresult, huse⟩ | ⟨rfl, hresult, huse⟩ <;>
      rw [huse, hresult]
    · rw [Code.instrs_prepend]
      rcases hop with rfl | rfl <;> exact .plain rfl (Nat.le_refl _) rfl hrest
    · exact hret

/-- The instructions that end a program are valid. -/
theorem valid_returnCode {count : Nat} (endLine : Nat) (result : Bool) :
    ∀ i ∈ (Machine.returnCode endLine result).instrs, i.Valid count := by
  have hret : ∀ i ∈ [(⟨.ret, 0⟩ : Instr)], i.Valid count :=
    List.forall_mem_singleton.mpr (Instr.valid_of_width rfl)
  cases result with
  | true => exact hret
  | false => exact List.forall_mem_cons.mpr ⟨Instr.valid_of_width rfl, hret⟩

/-- The instructions of a program are valid if the literals of its statements stand in their slots.
-/
theorem valid_sentencesThen {p : List Sentence}
    (hp : ∀ σ ∈ p, σ.tree.Fits (Machine.Stored pool)) (hpool : pool.length ≤ Pool.capacity)
    (h : ∀ i ∈ after.instrs, i.Valid pool.length) :
    ∀ i ∈ (Machine.sentencesThen pool after p).instrs, i.Valid pool.length := by
  induction p with
  | nil => exact h
  | cons σ p ih =>
    have hrest := ih fun τ hτ => hp τ (List.mem_cons_of_mem _ hτ)
    refine valid_codeThen (hp σ List.mem_cons_self) hpool ?_
    rcases useOfSentence_cases σ p with ⟨op, line, hop, -, huse⟩ | ⟨-, -, huse⟩ <;> rw [huse]
    · rw [Code.instrs_prepend]
      refine List.forall_mem_cons.mpr ⟨Instr.valid_of_width ?_, hrest⟩
      rcases hop with rfl | rfl <;> rfl
    · exact hrest

/-- A chunk is made of these instructions. -/
structure Chunk.Composed (c : Chunk) (is : List Instr) : Prop where
  code_eq : c.code = is.flatMap Instr.encode
  length_lines : c.lines.length = c.code.length
  valid : ∀ i ∈ is, i.Valid c.consts.length
  levelled : Levelled 0 is

/-- The chunk of a program within the limits is made of the instructions of its code. -/
theorem composed_of_admitted {ts : List Token} {p : List Sentence} (hp : Sentences ts p)
    (hadmitted : Program.Admitted [] p) (endLine : Nat) :
    Chunk.Composed
      (.ofCode
        (Machine.sentencesThen (Pool.addAll [] (literals p))
          (Machine.returnCode endLine (Machine.givesResult p)) p)
        (Pool.addAll [] (literals p)))
      (Machine.sentencesThen (Pool.addAll [] (literals p))
        (Machine.returnCode endLine (Machine.givesResult p)) p).instrs := by
  have hfits := Machine.fits_of_admitted hp hadmitted
  have hpool := (Pool.holds_addAll (Program.regular_literals hp)).length_le
  refine ⟨Code.bytes_eq _, Code.length_lines _, ?_, levelled_sentencesThen hfits _⟩
  exact valid_sentencesThen hfits hpool (valid_returnCode _ _)

/-- The chunk of an accepted source is made of levelled instructions. -/
theorem exists_composed_of_compile {source : Bytes} {c : Chunk} (h : compile source = .ok c) :
    ∃ is, c.Composed is := by
  obtain ⟨p, hp, hadmitted, rfl⟩ := exists_program_of_compile h
  exact ⟨_, composed_of_admitted hp hadmitted _⟩

end Lox
