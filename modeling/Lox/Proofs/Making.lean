import Lox.Proofs.Blame
import Lox.Proofs.Emitted

/-!
# Code in the order of reading

The code of a program is made from its end, with all constants in their slots, and of each statement
the first complaint is found afterwards. Here both are made as they come: `Made.expr` goes through
an expression in the order of its tokens, adds a literal to the pool when it meets it, writes each
instruction after those before it, and complains on the spot.

It comes to the same (`Made.expr_eq`). A literal that finds a slot keeps it, and one that finds none
was met when the pool was full, and then it stays as it is (`Pool.slot?_addAll`). So an instruction
that was written early names the slot that it would name in the end.
-/

namespace Lox

/-! ## Slots that last -/

namespace Pool

variable {p : Pool} {v : Value}

/-- Adding literals only puts values at the end of the pool. -/
theorem exists_addAll_eq (p : Pool) (vs : List Value) : ∃ added, p.addAll vs = p ++ added := by
  induction vs generalizing p with
  | nil => exact ⟨[], (List.append_nil p).symm⟩
  | cons v vs ih =>
    obtain ⟨added, hadded⟩ := ih (p.add v)
    rw [addAll, List.foldl_cons]
    rw [addAll] at hadded
    rw [hadded]
    unfold add
    split
    · exact ⟨v :: added, by rw [List.append_assoc]; rfl⟩
    · exact ⟨added, rfl⟩

/-- Adding literals does not exceed the capacity. -/
theorem length_addAll_le (h : p.length ≤ capacity) (vs : List Value) :
    (p.addAll vs).length ≤ capacity := by
  induction vs generalizing p with
  | nil => exact h
  | cons v vs ih => exact ih (length_add_le h v)

/-- A constant that was added has a slot, or there is no room for any other. -/
theorem slot?_add (h : p.length ≤ capacity) (hv : v.Regular) (hpooled : v.isPooled = true) :
    (∃ i, (p.add v).slot? v = some i) ∨ (p.add v).length = capacity := by
  by_cases hroom : (p.slot? v).isNone = true ∧ p.length < capacity
  · left
    have hadd : p.add v = p ++ [v] := by
      rw [add, if_pos]
      rw [hpooled, hroom.1, decide_eq_true hroom.2]
      rfl
    have hself : v.equals v = true := (Value.equals_iff hv hv).mpr rfl
    have hsome : ((p ++ [v]).slot? v).isSome = true := by
      rw [slot?, List.findIdx?_isSome]
      simp [hself]
    rw [hadd]
    exact Option.isSome_iff_exists.mp hsome
  · have hadd : p.add v = p := by
      rw [add, if_neg]
      intro hall
      simp only [Bool.and_eq_true, decide_eq_true_eq] at hall
      exact hroom ⟨hall.1.2, hall.2⟩
    rw [hadd]
    cases hslot : p.slot? v with
    | some i => exact .inl ⟨i, rfl⟩
    | none =>
      right
      have hnot : ¬ p.length < capacity := fun hlt => hroom ⟨by rw [hslot]; rfl, hlt⟩
      omega

/-- The slot of a constant does not change with what is added after it. -/
theorem slot?_addAll (h : p.length ≤ capacity) (hv : v.Regular) (hpooled : v.isPooled = true)
    (vs : List Value) : ((p.add v).addAll vs).slot? v = (p.add v).slot? v := by
  rcases slot?_add h hv hpooled with ⟨i, hi⟩ | hfull
  · obtain ⟨added, hadded⟩ := exists_addAll_eq (p.add v) vs
    rw [hadded, slot?, List.findIdx?_append]
    rw [slot?] at hi
    rw [hi, slot?, hi]
    rfl
  · rw [addAll_of_full hfull]

end Pool

/-! ## Code and findings in order -/

/-- Instructions of one line. -/
def placedOn (line : Int) (is : List Instr) : List Placed :=
  is.map (⟨·, line⟩)

namespace Expr

/-- The literals of a binary operation are those of its operands, from left to right. -/
theorem literals_binary (op : BinaryOp) (c : Cell) (l r : Expr) :
    (binary op c l r).literals = l.literals ++ r.literals :=
  literalsThen_eq l r.literals

/-- The literals of a logical operation are those of its operands, from left to right. -/
theorem literals_logic (op : LogicOp) (c : Cell) (l r : Expr) :
    (logic op c l r).literals = l.literals ++ r.literals :=
  literalsThen_eq l r.literals

/-- The code of an expression does not depend on what follows it. -/
theorem placed_codeThen (pool : Pool) (e : Expr) (after : Code) :
    (e.codeThen pool after).placed = (e.codeThen pool {}).placed ++ after.placed := by
  induction e generalizing after with
  | literal c v => rfl
  | missing c => rfl
  | group c e closing ih => exact ih after
  | unary op c e ih =>
    rw [codeThen, codeThen, ih, ih (Code.prepend _ _ {}), List.append_assoc]
    rfl
  | binary op c l r ihl ihr =>
    rw [codeThen, codeThen, ihl, ihl (r.codeThen pool _), ihr, ihr (Code.prepend _ _ {})]
    simp [Code.prepend]
  | logic op c l r ihl ihr =>
    rw [codeThen_logic, codeThen_logic, ihl, ihl (Code.prepend _ _ (r.codeThen pool {}))]
    simp only [Code.prepend]
    rw [ihr after]
    simp only [List.append_assoc]

/-- The instruction of a unary operator comes after its operand. -/
theorem placed_unary (pool : Pool) (op : UnaryOp) (c : Cell) (e : Expr) :
    ((unary op c e).codeThen pool {}).placed =
      (e.codeThen pool {}).placed ++ placedOn c.line [⟨op.opcode, 0⟩] := by
  rw [codeThen, placed_codeThen]
  rfl

/-- The instructions of a binary operator come after both operands. -/
theorem placed_binary (pool : Pool) (op : BinaryOp) (c : Cell) (l r : Expr) :
    ((binary op c l r).codeThen pool {}).placed = (l.codeThen pool {}).placed ++
      ((r.codeThen pool {}).placed ++ placedOn c.line (op.opcodes.map (⟨·, 0⟩))) := by
  rw [codeThen, placed_codeThen, placed_codeThen pool r]
  simp [Code.prepend, placedOn]

/-- The jump of a logical operator comes between its operands. -/
theorem placed_logic (pool : Pool) (op : LogicOp) (c : Cell) (l r : Expr) :
    ((logic op c l r).codeThen pool {}).placed = (l.codeThen pool {}).placed ++
      (placedOn c.line (logicCode op r.size) ++ (r.codeThen pool {}).placed) := by
  rw [codeThen_logic, placed_codeThen]
  rfl

/-- What an expression is found to lack comes before what is found after it. -/
theorem complaint?_findThen_eq (pool : Pool) (e : Expr) (k : Finding) :
    (e.findThen pool k).complaint? = ((e.findThen pool {}).complaint? <|> k.complaint?) := by
  induction e generalizing k with
  | literal c v => simp [findThen, Option.or_assoc]
  | missing c => cases hc : c.complaint? <;> simp [findThen, hc]
  | group c e closing ih =>
    simp only [findThen, Finding.after]
    rw [ih ⟨closingComplaint? closing <|> k.complaint?, k.size⟩,
      ih ⟨closingComplaint? closing <|> none, 0⟩]
    simp [Option.or_assoc]
  | unary op c e ih =>
    simp only [findThen, Finding.after]
    rw [ih ⟨k.complaint?, 1 + k.size⟩, ih ⟨none, 1 + 0⟩]
    simp [Option.or_assoc]
  | binary op c l r ihl ihr =>
    simp only [findThen, Finding.after]
    rw [ihl ⟨c.complaint? <|>
        (r.findThen pool ⟨k.complaint?, op.opcodes.length + k.size⟩).complaint?, _⟩,
      ihl ⟨c.complaint? <|> (r.findThen pool ⟨none, op.opcodes.length + 0⟩).complaint?, _⟩,
      ihr ⟨k.complaint?, op.opcodes.length + k.size⟩, ihr ⟨none, op.opcodes.length + 0⟩]
    simp [Option.or_assoc]
  | logic op c l r ihl ihr =>
    simp only [findThen]
    rw [ihl ⟨c.complaint? <|> (r.findThen pool {}).complaint? <|>
        leapComplaint? r (r.findThen pool {}).size <|> k.complaint?, _⟩,
      ihl ⟨c.complaint? <|> (r.findThen pool {}).complaint? <|>
        leapComplaint? r (r.findThen pool {}).size <|> none, _⟩]
    simp [Option.or_assoc]

section Complaints

variable (pool : Pool) (c : Cell) (e l r : Expr)

/-- In a group the parenthesis is complained about first, then what it holds, then its end. -/
theorem complaint?_group (closing : Closing) :
    ((group c e closing).findThen pool {}).complaint? =
      (c.complaint? <|> (e.findThen pool {}).complaint? <|> closingComplaint? closing) := by
  rw [findThen, Finding.after, complaint?_findThen_eq]
  simp [Finding.after]

/-- A unary operator is complained about before its operand. -/
theorem complaint?_unary (op : UnaryOp) :
    ((unary op c e).findThen pool {}).complaint? =
      (c.complaint? <|> (e.findThen pool {}).complaint?) := by
  rw [findThen, Finding.after, complaint?_findThen_eq]
  simp

/-- A binary operator is complained about between its operands. -/
theorem complaint?_binary (op : BinaryOp) :
    ((binary op c l r).findThen pool {}).complaint? =
      ((l.findThen pool {}).complaint? <|> c.complaint? <|> (r.findThen pool {}).complaint?) := by
  rw [findThen, complaint?_findThen_eq, Finding.after, complaint?_findThen_eq pool r]
  simp

/-- A logical operator is complained about between its operands, and the length of the right one
last. -/
theorem complaint?_logic (op : LogicOp) :
    ((logic op c l r).findThen pool {}).complaint? =
      ((l.findThen pool {}).complaint? <|> c.complaint? <|> (r.findThen pool {}).complaint? <|>
        leapComplaint? r r.size) := by
  rw [findThen, complaint?_findThen_eq, size_findThen]
  simp [size]

end Complaints

end Expr

/-! ## Made as it comes -/

/-- What has been made of a source so far. Errors are kept last first. -/
structure Made where
  code : Bytes := []
  lines : List Int := []
  pool : Pool := []
  errors : List Diagnostic := []
  /-- Whether complaints are held back. -/
  quiet : Bool := false
  /-- Whether the last statement leaves its value as the result. -/
  result : Bool := false

namespace Made

/-- Complains, if there is a complaint and it is not held back. -/
def complain (m : Made) (d? : Option Diagnostic) : Made :=
  match d? with
  | none => m
  | some d => { m with errors := if m.quiet then m.errors else d :: m.errors, quiet := true }

/-- Writes instructions. -/
def write (m : Made) (ps : List Placed) : Made :=
  { m with
    code := m.code ++ ps.flatMap fun p => p.instr.encode
    lines := m.lines ++ ps.flatMap fun p => List.replicate p.instr.size p.line }

/-- Adds literals to the pool. -/
def grow (m : Made) (vs : List Value) : Made :=
  { m with pool := m.pool.addAll vs }

/-- Makes an expression. -/
def expr (m : Made) : Expr → Made
  | .literal c v =>
    let m := (m.complain c.complaint?).grow [v]
    (m.complain (Expr.literalComplaint? m.pool c v)).write (placedOn c.line [Expr.push m.pool v])
  | .missing c => (m.complain c.complaint?).complain (some ⟨.expectExpression, c.token⟩)
  | .group c e closing =>
    ((m.complain c.complaint?).expr e).complain (Expr.closingComplaint? closing)
  | .unary op c e => ((m.complain c.complaint?).expr e).write (placedOn c.line [⟨op.opcode, 0⟩])
  | .binary op c l r =>
    (((m.expr l).complain c.complaint?).expr r).write (placedOn c.line (op.opcodes.map (⟨·, 0⟩)))
  | .logic op c l r =>
    ((((m.expr l).complain c.complaint?).write (placedOn c.line (Expr.logicCode op r.size))).expr
      r).complain (Expr.leapComplaint? r r.size)

/-- Of three complaints the first one counts, however they are grouped. -/
theorem orElse_assoc (a b c : Option Diagnostic) : ((a <|> b) <|> c) = (a <|> b <|> c) := by
  cases a <;> rfl

section Order

variable (m : Made) (d? e? : Option Diagnostic) (ps qs : List Placed) (vs ws : List Value)

@[simp] theorem complain_none : m.complain none = m := rfl

/-- Of two complaints the first one counts. -/
theorem complain_complain : (m.complain d?).complain e? = m.complain (d? <|> e?) := by
  cases d? with
  | none => rfl
  | some d => cases e? <;> rfl

/-- Whether code is written before a complaint or after it makes no difference. -/
theorem write_complain : (m.complain d?).write ps = (m.write ps).complain d? := by
  cases d? <;> rfl

/-- Whether literals are added before a complaint or after it makes no difference. -/
theorem grow_complain : (m.complain d?).grow vs = (m.grow vs).complain d? := by
  cases d? <;> rfl

/-- Whether literals are added before code is written or after it makes no difference. -/
theorem grow_write : (m.write ps).grow vs = (m.grow vs).write ps := rfl

/-- Instructions may be written in two parts. -/
theorem write_write : (m.write ps).write qs = m.write (ps ++ qs) := by
  simp [write]

/-- Literals may be added in two parts. -/
theorem grow_grow : (m.grow vs).grow ws = m.grow (vs ++ ws) := by
  rw [grow, grow, grow, Pool.addAll_append]

/-- A complaint does not change the pool. -/
@[simp] theorem pool_complain : (m.complain d?).pool = m.pool := by
  cases d? <;> rfl

/-- Writing code does not change the pool. -/
@[simp] theorem pool_write : (m.write ps).pool = m.pool := rfl

@[simp] theorem pool_grow : (m.grow vs).pool = m.pool.addAll vs := rfl

end Order

variable {m : Made} {v : Value}

/-- The instruction that pushes a literal does not change with what is added to the pool after it.
-/
theorem push_addAll (h : m.pool.length ≤ Pool.capacity) (hv : v.Regular) (vs : List Value) :
    Expr.push ((m.pool.addAll [v]).addAll vs) v = Expr.push (m.pool.addAll [v]) v := by
  have hslot (hpooled : v.isPooled = true) := Pool.slot?_addAll h hv hpooled vs
  cases v with
  | nil => rfl
  | bool b => cases b <;> rfl
  | number x | text b => exact congrArg (fun i? => (⟨.const, i?.getD 0⟩ : Instr)) (hslot rfl)

/-- Whether a literal finds a slot does not change with what is added to the pool after it. -/
theorem literalComplaint?_addAll (h : m.pool.length ≤ Pool.capacity) (hv : v.Regular)
    (vs : List Value) (c : Cell) :
    Expr.literalComplaint? ((m.pool.addAll [v]).addAll vs) c v =
      Expr.literalComplaint? (m.pool.addAll [v]) c v := by
  have hlacks : ((m.pool.addAll [v]).addAll vs).lacks v = (m.pool.addAll [v]).lacks v := by
    unfold Pool.lacks
    cases hpooled : v.isPooled with
    | false => rfl
    | true => exact congrArg (fun i? => true && i?.isNone) (Pool.slot?_addAll h hv hpooled vs)
  rw [Expr.literalComplaint?, hlacks]
  rfl

/-- Made as it comes, an expression is what it is when it is made with all constants in their
slots. -/
theorem expr_eq (e : Expr) (m : Made) (hm : m.pool.length ≤ Pool.capacity)
    (he : Pool.Regular e.literals) (vs : List Value) :
    m.expr e = ((m.grow e.literals).write
      (e.codeThen ((m.pool.addAll e.literals).addAll vs) {}).placed).complain
      (e.findThen ((m.pool.addAll e.literals).addAll vs) {}).complaint? := by
  induction e generalizing m vs with
  | literal c v =>
    have hv : v.Regular := he v List.mem_cons_self
    have hpush := push_addAll hm hv vs
    have hcomplaint := literalComplaint?_addAll hm hv vs c
    simp only [expr, grow_complain, complain_complain, write_complain, pool_complain, pool_grow]
    rw [← hpush, ← hcomplaint]
    simp [Expr.findThen, Expr.codeThen, Expr.literals, Expr.literalsThen, Code.prepend, placedOn]
  | missing c =>
    have hgrow : (m.grow []).write [] = m := by simp [grow, write, Pool.addAll]
    simp only [expr, complain_complain]
    exact congrArg (complain · _) hgrow.symm
  | group c e closing ih =>
    rw [Expr.complaint?_group, expr, ih _ (by simpa using hm) he vs]
    simp only [grow_complain, complain_complain, write_complain, pool_complain, orElse_assoc]
    rfl
  | unary op c e ih =>
    rw [Expr.complaint?_unary, Expr.placed_unary, expr, ih _ (by simpa using hm) he vs]
    simp only [grow_complain, complain_complain, write_complain, pool_complain, write_write]
    rfl
  | binary op c l r ihl ihr =>
    rw [Expr.literals_binary] at he ⊢
    obtain ⟨hl, hr⟩ := List.forall_mem_append.mp he
    have hgrown := Pool.length_addAll_le hm l.literals
    rw [Expr.complaint?_binary, Expr.placed_binary, expr, ihl m hm hl (r.literals ++ vs),
      ihr _ (by simpa using hgrown) hr vs]
    simp only [grow_complain, complain_complain, write_complain, pool_complain, pool_grow,
      write_write, grow_write, grow_grow, pool_write, Pool.addAll_append, List.append_assoc,
      orElse_assoc]
  | logic op c l r ihl ihr =>
    rw [Expr.literals_logic] at he ⊢
    obtain ⟨hl, hr⟩ := List.forall_mem_append.mp he
    have hgrown := Pool.length_addAll_le hm l.literals
    rw [Expr.complaint?_logic, Expr.placed_logic, expr, ihl m hm hl (r.literals ++ vs),
      ihr _ (by simpa using hgrown) hr vs]
    simp only [grow_complain, complain_complain, write_complain, pool_complain, pool_grow,
      write_write, grow_write, grow_grow, pool_write, Pool.addAll_append, List.append_assoc,
      orElse_assoc]

/-- What is written before an expression stays before it, and does not change it. -/
theorem expr_write (e : Expr) (m : Made) (hm : m.pool.length ≤ Pool.capacity)
    (he : Pool.Regular e.literals) :
    ∃ (n : Made) (qs : List Placed),
      (∀ ps, (m.write ps).expr e = n.write (ps ++ qs)) ∧ n.code = m.code ∧
      (qs.flatMap fun q => q.instr.encode).length = e.size := by
  refine ⟨(m.grow e.literals).complain (e.findThen (m.pool.addAll e.literals) {}).complaint?,
    (e.codeThen (m.pool.addAll e.literals) {}).placed, ?_, ?_, ?_⟩
  · intro ps
    rw [expr_eq e (m.write ps) hm he [], grow_write, write_write, write_complain]
    rfl
  · cases (e.findThen (m.pool.addAll e.literals) {}).complaint? <;> rfl
  · exact Expr.length_bytes_codeThen _ e Code.counted_empty

/-! ## Statements -/

/-- Carries out what becomes of a statement's value. -/
def use (m : Made) : Use → Made
  | .print line => m.write (placedOn line [⟨.print, 0⟩])
  | .drop line => m.write (placedOn line [⟨.pop, 0⟩])
  | .result => { m with result := true }
  | .nothing => m

/-- Makes a statement, when `rest` follows it. -/
def take (m : Made) (s : Statement) (rest : List Cell) : Made :=
  let m := ((m.complain (s.print?.bind Cell.complaint?)).expr s.expr).complain s.endComplaint?
  m.use (Program.useOf s m.quiet rest)

/-- Where to go on after a statement, and what has been made by then. -/
def resume (m : Made) (s : Statement) (rest : List Cell) : Made × List Cell :=
  if m.quiet then
    let recovered := Program.recover (s.last.kind = .semicolon) rest none
    (complain { m with quiet := false } recovered.2, recovered.1)
  else (m, rest)

/-- Ends the code, on the line on which the source ends. -/
def finish (m : Made) (line : Int) : Made :=
  m.write (placedOn line (if m.result then [⟨.ret, 0⟩] else [⟨.pushNil, 0⟩, ⟨.ret, 0⟩]))

end Made

namespace Program

/-- The instructions of some statements. -/
def placedOf (pool : Pool) (actions : List Action) : List Placed :=
  actions.flatMap fun a => (a.expr.codeThen pool {}).placed ++ (a.use.codeThen {}).placed

/-- The code of a program is that of its statements, and then what follows. -/
theorem placed_foldr (pool : Pool) (actions : List Action) (after : Code) :
    (actions.foldr (fun a after => a.expr.codeThen pool (a.use.codeThen after)) after).placed =
      placedOf pool actions ++ after.placed := by
  have huse : ∀ (use : Use) (after : Code),
      (use.codeThen after).placed = (use.codeThen {}).placed ++ after.placed := by
    intro use after
    cases use <;> rfl
  induction actions with
  | nil => rfl
  | cons a actions ih =>
    rw [List.foldr_cons, Expr.placed_codeThen, huse, ih]
    simp [placedOf]

end Program

namespace Made

/-- What has been made is what reading has come to. -/
structure Follows (m : Made) (p : Program.Progress) : Prop where
  pool : m.pool = p.pool
  length_pool : m.pool.length ≤ Pool.capacity
  errors : m.errors = p.errors
  quiet : m.quiet = p.quiet
  result : m.result = (p.actions.head?.map Action.use == some .result)
  /-- The code stays what it is when other constants are added. -/
  code : ∀ vs, m.code =
    (Program.placedOf (m.pool.addAll vs) p.actions.reverse).flatMap fun q => q.instr.encode
  lines : ∀ vs, m.lines = (Program.placedOf (m.pool.addAll vs) p.actions.reverse).flatMap
    fun q => List.replicate q.instr.size q.line

variable {m : Made} {p : Program.Progress}

section Use

variable (m : Made) (u : Use)

/-- What becomes of a value does not change the pool. -/
@[simp] theorem pool_use : (m.use u).pool = m.pool := by
  cases u <;> rfl

/-- What becomes of a value is no error. -/
@[simp] theorem errors_use : (m.use u).errors = m.errors := by
  cases u <;> rfl

/-- What becomes of a value does not end the silence after an error. -/
@[simp] theorem quiet_use : (m.use u).quiet = m.quiet := by
  cases u <;> rfl

/-- A value that is the result of the program is remembered as that. -/
theorem result_use : (m.use u).result = (m.result || u == .result) := by
  cases u <;> simp [use, write]

/-- The bytes for the use of a value are written after those before. -/
theorem code_use :
    (m.use u).code = m.code ++ (u.codeThen {}).placed.flatMap fun q => q.instr.encode := by
  cases u <;> simp [use, write, Use.codeThen, Code.prepend, placedOn]

/-- The bytes for the use of a value have its line. -/
theorem lines_use : (m.use u).lines =
    m.lines ++ (u.codeThen {}).placed.flatMap fun q => List.replicate q.instr.size q.line := by
  cases u <;> simp [use, write, Use.codeThen, Code.prepend, placedOn]

end Use

section Complain

variable (m : Made) (d? : Option Diagnostic)

/-- A complaint writes no code. -/
@[simp] theorem code_complain : (m.complain d?).code = m.code := by
  cases d? <;> rfl

/-- A complaint writes no lines. -/
@[simp] theorem lines_complain : (m.complain d?).lines = m.lines := by
  cases d? <;> rfl

/-- A complaint does not change whether there is a result. -/
@[simp] theorem result_complain : (m.complain d?).result = m.result := by
  cases d? <;> rfl

end Complain

/-- An expression does not change whether there is a result. -/
@[simp] theorem result_expr (m : Made) (e : Expr) : (m.expr e).result = m.result := by
  induction e generalizing m with
  | literal c v => simp [expr, write, grow]
  | missing c => simp [expr]
  | group c e closing ih => simp [expr, ih]
  | unary op c e ih => simp [expr, write, ih]
  | binary op c l r ihl ihr | logic op c l r ihl ihr => simp [expr, write, ihl, ihr]

/-- A statement before its value is used, with all constants in their slots. -/
theorem unused_eq (m : Made) (hm : m.pool.length ≤ Pool.capacity) {s : Statement}
    (hs : Pool.Regular s.expr.literals) (vs : List Value) :
    ((m.complain (s.print?.bind Cell.complaint?)).expr s.expr).complain s.endComplaint? =
      ((m.grow s.expr.literals).write
        (s.expr.codeThen ((m.pool.addAll s.expr.literals).addAll vs) {}).placed).complain
        (s.complaint? ((m.pool.addAll s.expr.literals).addAll vs)) := by
  rw [expr_eq s.expr _ (by simpa using hm) hs vs]
  simp only [grow_complain, complain_complain, write_complain, pool_complain, orElse_assoc]
  rw [Statement.complaint?, Expr.complaint?_findThen_eq _ _ ⟨s.endComplaint?, 0⟩]

/-- A complaint is recorded alike in what is made and in what is read. -/
theorem Follows.complain (h : Follows m p) (d? : Option Diagnostic) :
    Follows (m.complain d?) (p.complain d?) := by
  cases d? with
  | none => exact h
  | some d =>
    refine ⟨h.pool, h.length_pool, ?_, rfl, h.result, h.code, h.lines⟩
    simp [Made.complain, Program.Progress.complain, h.errors, h.quiet]

/-- Literals are added alike to what is made and to what is read. -/
theorem Follows.grow (h : Follows m p) (vs : List Value) :
    Follows (m.grow vs) { p with pool := p.pool.addAll vs } := by
  refine ⟨?_, Pool.length_addAll_le h.length_pool vs, h.errors, h.quiet, h.result, ?_, ?_⟩
  · rw [pool_grow, h.pool]
  · intro ws
    rw [pool_grow, ← Pool.addAll_append]
    exact h.code (vs ++ ws)
  · intro ws
    rw [pool_grow, ← Pool.addAll_append]
    exact h.lines (vs ++ ws)

/-- An expression is written after what is there, and its value is used. -/
theorem Follows.act (h : Follows m p) (hresult : m.result = false) {e : Expr} {n : Made}
    (hn : n = m.write (e.codeThen m.pool {}).placed)
    (hcode : ∀ vs, n.code = m.code ++
      (e.codeThen (m.pool.addAll vs) {}).placed.flatMap fun q => q.instr.encode)
    (hlines : ∀ vs, n.lines = m.lines ++
      (e.codeThen (m.pool.addAll vs) {}).placed.flatMap
        fun q => List.replicate q.instr.size q.line)
    (u : Use) : Follows (n.use u) { p with actions := ⟨e, u⟩ :: p.actions } := by
  have hpool : n.pool = m.pool := by rw [hn, pool_write]
  have hplaced (pool : Pool) : Program.placedOf pool (p.actions.reverse ++ [⟨e, u⟩]) =
      Program.placedOf pool p.actions.reverse ++
        ((e.codeThen pool {}).placed ++ (u.codeThen {}).placed) := by
    simp [Program.placedOf]
  refine ⟨?_, ?_, ?_, ?_, ?_, ?_, ?_⟩
  · rw [pool_use, hpool, h.pool]
  · rw [pool_use, hpool]
    exact h.length_pool
  · rw [errors_use, hn]
    exact h.errors
  · rw [quiet_use, hn]
    exact h.quiet
  · have hn' : n.result = false := by
      rw [hn]
      exact hresult
    rw [result_use, hn']
    simp
  · intro vs
    rw [code_use, pool_use, hpool, hcode vs, h.code vs, List.reverse_cons, hplaced,
      List.flatMap_append, List.flatMap_append, List.append_assoc]
  · intro vs
    rw [lines_use, pool_use, hpool, hlines vs, h.lines vs, List.reverse_cons, hplaced,
      List.flatMap_append, List.flatMap_append, List.append_assoc]

/-- A statement is made as reading takes it. -/
theorem Follows.take (h : Follows m p) (hresult : m.result = false) {s : Statement}
    (hs : Pool.Regular s.expr.literals) (rest : List Cell) :
    Follows (m.take s rest) (p.take s rest) := by
  have hunused := unused_eq m h.length_pool hs
  have htold := (h.grow s.expr.literals).complain (s.complaint? (p.pool.addAll s.expr.literals))
  rw [Made.take]
  generalize ((m.complain (s.print?.bind Cell.complaint?)).expr s.expr).complain
    s.endComplaint? = unused at hunused ⊢
  -- what is held against the statement does not hang on the constants after it
  have hnil : unused = ((m.grow s.expr.literals).complain
      (s.complaint? (p.pool.addAll s.expr.literals))).write
        (s.expr.codeThen (m.pool.addAll s.expr.literals) {}).placed := by
    rw [hunused [], write_complain, h.pool]
    rfl
  have hquiet : unused.quiet =
      (Program.Progress.complain { p with pool := p.pool.addAll s.expr.literals }
        (s.complaint? (p.pool.addAll s.expr.literals))).quiet := by
    rw [hnil]
    exact htold.quiet
  rw [Program.Progress.take, hquiet]
  refine htold.act (by simpa [Made.grow] using hresult) ?_ ?_ ?_ _
  · rw [hnil, pool_complain, pool_grow]
  · intro vs
    rw [hunused vs, code_complain, code_complain, pool_complain, pool_grow]
    rfl
  · intro vs
    rw [hunused vs, lines_complain, lines_complain, pool_complain, pool_grow]
    rfl

/-- After a statement both go on at the same point, and remain in step. -/
theorem Follows.resume (h : Follows m p) (s : Statement) (rest : List Cell) :
    Follows (m.resume s rest).1 (Program.resume p s rest).1 ∧
      (m.resume s rest).2 = (Program.resume p s rest).2 := by
  unfold Made.resume Program.resume
  rw [h.quiet]
  split
  · have hloud : Follows { m with quiet := false } { p with quiet := false } :=
      ⟨h.pool, h.length_pool, h.errors, rfl, h.result, h.code, h.lines⟩
    exact ⟨hloud.complain _, rfl⟩
  · exact ⟨h, rfl⟩

/-- At the beginning nothing has been made and nothing has been read. -/
theorem follows_empty : Follows {} {} where
  pool := rfl
  length_pool := Nat.zero_le _
  errors := rfl
  quiet := rfl
  result := rfl
  code _ := rfl
  lines _ := rfl

/-- What is made in the end is the code of the program that was read. -/
theorem Follows.finish (h : Follows m p) (errors : List Diagnostic) (line : Int) :
    (m.finish line).code = (Program.code ⟨p.actions.reverse, p.pool, errors, line⟩).bytes ∧
      (m.finish line).lines = (Program.code ⟨p.actions.reverse, p.pool, errors, line⟩).lines := by
  have hresult : Program.hasResult ⟨p.actions.reverse, p.pool, errors, line⟩ = m.result := by
    rw [h.result, Program.hasResult, List.getLast?_reverse]
  have hplaced : (Program.code ⟨p.actions.reverse, p.pool, errors, line⟩).placed =
      Program.placedOf p.pool p.actions.reverse ++
        placedOn line (if m.result then [⟨.ret, 0⟩] else [⟨.pushNil, 0⟩, ⟨.ret, 0⟩]) := by
    rw [Program.code, Program.placed_foldr, Program.ending, hresult]
    simp [Code.prepend, placedOn]
  have hcode := h.code []
  have hlines := h.lines []
  rw [h.pool] at hcode hlines
  constructor
  · rw [Code.bytes, hplaced, List.flatMap_append, Made.finish, write, hcode]
    rfl
  · rw [Code.lines, hplaced, List.flatMap_append, Made.finish, write, hlines]
    rfl

end Made

end Lox
