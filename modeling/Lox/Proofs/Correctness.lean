import Lox.Proofs.Acceptance
import Lox.Proofs.Effects
import Lox.Proofs.Evaluation
import Lox.Proofs.Steps

/-!
# Compiled programs do what they mean

Running the chunk of an accepted source gives the result and the output of evaluating the program
that the source is (`run_compile`).

The argument follows the code. `leads_eval` says of an expression's code, wherever it stands and
whatever lies on the stack, that a run either stops with the expression's fault or comes out right
behind it, with its value on top. It is an induction on the tree; an operator's own instructions are
dealt with by `leads_binary`, and the jumps of a logical operator land where they should because the
code between has the size they leap. `ending_program` goes on from there over the statements.
-/

namespace Lox

open Grammar

namespace Machine

variable {κ : Type} [Sink κ] {o : Options} {c : Chunk} {n : Nat} {s : Stack} {k : κ}
  {after : Code} {line : Int} {i : Instr}

/-! ## One instruction -/

/-- An instruction that stands at an offset is fetched there. -/
theorem fetchAt?_of_at (h : c.At n (after.prepend line [i])) (hi : i.Fits) :
    c.fetchAt? n = some (.whole i) := by
  obtain ⟨bs, hbytes, hfetch⟩ := fetch_encode hi after.bytes
  rw [Chunk.fetchAt?, h.bytes, Code.bytes_prepend, hbytes]
  exact congrArg some hfetch

/-- An instruction that stands at an offset has the line it was written with. -/
theorem lineOf_of_at (h : c.At n (after.prepend line [i])) : c.lineOf n = line := by
  rw [Chunk.lineOf, h.lines, Code.lines_prepend]
  rfl

/-- Behind an instruction stands the code that follows it. -/
theorem at_next (h : c.At n (after.prepend line [i])) : c.At (n + i.size) after := by
  constructor
  · rw [← List.drop_drop, h.bytes, Code.bytes_prepend, List.drop_left' i.length_encode]
  · rw [← List.drop_drop, h.lines, Code.lines_prepend, List.drop_left' List.length_replicate]

/-- How a run ends from an instruction, in terms of what the instruction does. -/
theorem ending_perform (h : c.At n (after.prepend line [i])) (hi : i.Fits) :
    ending o c ⟨n, s, k⟩ =
      match perform o c.consts i s k with
      | .error t => (.error (.fault ⟨t, line⟩), k)
      | .ok (.next s k) => ending o c ⟨n + i.size, s, k⟩
      | .ok (.leap s) => ending o c ⟨n + i.size + i.operand, s, k⟩
      | .ok (.done v) => (.ok v, k)
      | .ok (.refused k reason) => (.error (.refused reason), k) := by
  have hturn := turn_of_fetchAt? (o := o) (s := ⟨n, s, k⟩) (fetchAt?_of_at h hi)
  rw [← lineOf_of_at h]
  rcases hperform : perform o c.consts i s k with t | (_ | _ | _ | _) <;> rw [hperform] at hturn
  · exact ending_of_stop hturn
  · exact ending_of_go hturn
  · exact ending_of_go hturn
  · exact ending_of_stop hturn
  · exact ending_of_stop hturn

/-- An instruction that pushes a value needs room for it. -/
theorem ending_pushing {v : Value} (h : c.At n (after.prepend line [i])) (hi : i.Fits)
    (hperform : perform o c.consts i s k = pushing o s k v) :
    ending o c ⟨n, s, k⟩ =
      if o.limit ≤ s.height then (.error (.fault ⟨.overflow o.limit, line⟩), k)
      else ending o c ⟨n + i.size, s.push v, k⟩ := by
  rw [ending_perform h hi, hperform]
  by_cases hfull : o.limit ≤ s.height
  · rw [if_pos hfull, pushing_of_le hfull]
  · rw [if_neg hfull, pushing_of_lt (by omega)]

/-! ## Where code leads -/

/-- From a state a run ends with a fault, or as it does from the offset `m` with a value put on the
stack `base`. -/
def Leads (o : Options) (c : Chunk) (s : State κ) (m : Nat) (base : Stack) :
    Except RuntimeError Value → Prop
  | .error e => ending o c s = (.error (.fault e), s.console)
  | .ok v => ending o c s = ending o c ⟨m, base.push v, s.console⟩

/-- Where code leads is decided by how the run ends. -/
theorem Leads.of_ending {n' m : Nat} {s' base : Stack} {x : Except RuntimeError Value}
    (h : Leads o c ⟨n', s', k⟩ m base x)
    (heq : ending o c ⟨n, s, k⟩ = ending o c ⟨n', s', k⟩) : Leads o c ⟨n, s, k⟩ m base x := by
  cases x with
  | error e => exact heq.trans h
  | ok v => exact heq.trans h

/-- One thing after another. -/
theorem Leads.bind {n' m : Nat} {s' base : Stack} {x : Except RuntimeError Value}
    {f : Value → Except RuntimeError Value} (h : Leads o c ⟨n, s, k⟩ n' s' x)
    (hf : ∀ v, x = .ok v → Leads o c ⟨n', s'.push v, k⟩ m base (f v)) :
    Leads o c ⟨n, s, k⟩ m base (x >>= f) := by
  cases x with
  | error e => exact h
  | ok v => exact (hf v rfl).of_ending h

/-- An instruction that comes down to a push, after an operation that may trap. -/
theorem leads_pushing {base : Stack} {f : Except Trap Value} {line : Nat}
    (h : c.At n (after.prepend line [i])) (hi : i.Fits)
    (hperform : perform o c.consts i s k = f.bind (pushing o base k))
    (hroom : (base.height : Int) < o.limit) :
    Leads o c ⟨n, s, k⟩ (n + i.size) base (blame line f) := by
  have hending := ending_perform (o := o) (s := s) (k := k) h hi
  rw [hperform] at hending
  cases f with
  | error t => exact hending
  | ok v =>
    have hpush : (Except.ok v).bind (pushing o base k) = .ok (.next (base.push v) k) :=
      pushing_of_lt hroom v
    rw [hpush] at hending
    exact hending

/-! ## Operators -/

/-- An instruction without an operand fits. -/
theorem fits_of_width {op : Opcode} (h : op.width = 0) : (⟨op, 0⟩ : Instr).Fits := by
  rw [Instr.Fits, h]
  exact Nat.one_pos

/-- The instruction of a unary operator puts its value in the place of the operand. -/
theorem leads_unary (op : UnaryOp) {line : Nat} {v : Value}
    (h : c.At n (after.prepend line [⟨op.opcode, 0⟩])) (hroom : (s.height : Int) < o.limit) :
    Leads o c ⟨n, s.push v, k⟩ (n + 1) s (blame line (op.apply v)) := by
  cases op with
  | not => exact leads_pushing h (fits_of_width rfl) rfl hroom
  | negate =>
    refine leads_pushing h (fits_of_width rfl) ?_ hroom
    cases v <;> rfl

/-- A comparison and its negation. -/
theorem leads_negated {op : Opcode} {f : Value → Value → Except Trap Value} {line : Nat}
    {v w : Value} (hop : op.width = 0)
    (h : c.At n (after.prepend line [⟨op, 0⟩, ⟨.not, 0⟩]))
    (hperform : ∀ s : Stack, perform o c.consts ⟨op, 0⟩ s k = combining o op s k f)
    (hroom : (s.height : Int) < o.limit) :
    Leads o c ⟨n, (s.push v).push w, k⟩ (n + 2) s
      (blame line ((f v w).map fun u => .bool !u.isTruthy)) := by
  rw [Code.prepend_cons] at h
  have hsize : (⟨op, 0⟩ : Instr).size = 1 := by rw [Instr.size, hop]
  have hfirst := leads_pushing (s := (s.push v).push w) h (fits_of_width hop) (hperform _) hroom
  have hsecond := at_next h
  rw [hsize] at hfirst hsecond
  cases hf : f v w with
  | error t =>
    rw [hf] at hfirst
    exact hfirst
  | ok u =>
    rw [hf] at hfirst
    exact (leads_unary .not hsecond hroom).of_ending hfirst

/-- The instructions of an operator put its value in the place of the two operands. -/
theorem leads_binary (op : BinaryOp) {line : Nat} {v w : Value}
    (h : c.At n (after.prepend line (op.opcodes.map (⟨·, 0⟩))))
    (hroom : (s.height : Int) < o.limit) :
    Leads o c ⟨n, (s.push v).push w, k⟩ (n + op.opcodes.length) s
      (blame line (op.apply o v w)) := by
  cases op with
  | equal => exact leads_pushing h (fits_of_width rfl) rfl hroom
  | notEqual => exact leads_negated rfl h (fun _ => rfl) hroom
  | greater =>
    refine leads_pushing h (fits_of_width rfl) ?_ hroom
    cases v <;> cases w <;> rfl
  | greaterEqual =>
    have happly : BinaryOp.greaterEqual.apply o v w =
        (numeric Value.less? v w).map fun u => .bool !u.isTruthy := by
      cases v <;> cases w <;> rfl
    rw [happly]
    exact leads_negated rfl h (fun _ => rfl) hroom
  | less =>
    refine leads_pushing h (fits_of_width rfl) ?_ hroom
    cases v <;> cases w <;> rfl
  | lessEqual =>
    have happly : BinaryOp.lessEqual.apply o v w =
        (numeric Value.greater? v w).map fun u => .bool !u.isTruthy := by
      cases v <;> cases w <;> rfl
    rw [happly]
    exact leads_negated rfl h (fun _ => rfl) hroom
  | add | sub | mul =>
    refine leads_pushing h (fits_of_width rfl) ?_ hroom
    cases v <;> cases w <;> rfl
  | div =>
    have happly : BinaryOp.div.apply o v w = quotient o v w := by
      cases v <;> cases w <;>
        simp [BinaryOp.apply, quotient, Value.isNumber, Value.isZero, numeric, Value.div?]
    rw [happly]
    exact leads_pushing h (fits_of_width rfl) rfl hroom

/-! ## Expressions -/

/-- A literal that is kept in the pool stands in its slot. -/
def Stored (consts : List Value) (v : Value) : Prop :=
  v.isPooled = true → consts[(Pool.slot? consts v).getD 0]? = some v

/-- The code of a literal pushes its value, if there is room. -/
theorem leads_literal {t : Token} {v : Value} (hv : Stored c.consts v)
    (hconsts : c.consts.length ≤ Pool.capacity)
    (h : c.At n ((Tree.literal t v).expr.codeThen c.consts after)) :
    Leads o c ⟨n, s, k⟩ (n + (Tree.literal t v).expr.size) s
      ((Tree.literal t v).eval o s.height) := by
  have hperform : perform o c.consts (Expr.push c.consts v) s k = pushing o s k v := by
    cases v with
    | nil => rfl
    | bool b => cases b <;> rfl
    | number x | text bs =>
      have hslot := hv rfl
      simp only [Expr.push, perform, hslot]
  have hfits : (Expr.push c.consts v).Fits := by
    cases v with
    | nil => exact fits_of_width rfl
    | bool b => cases b <;> exact fits_of_width rfl
    | number x | text bs =>
      obtain ⟨hlt, -⟩ := List.getElem?_eq_some_iff.mp (hv rfl)
      exact Nat.lt_of_lt_of_le hlt hconsts
  have hending := ending_pushing h hfits hperform
  rw [Expr.size_push] at hending
  rw [Tree.eval]
  by_cases hfull : o.limit ≤ s.height
  · rw [if_pos hfull] at hending ⊢
    exact hending
  · rw [if_neg hfull] at hending ⊢
    exact hending

/-- A pop drops the top value and goes on. -/
theorem ending_pop {v : Value} (h : c.At n (after.prepend line [⟨.pop, 0⟩])) :
    ending o c ⟨n, s.push v, k⟩ = ending o c ⟨n + 1, s, k⟩ :=
  ending_perform h (fits_of_width rfl)

/-- The operand of a jump fits, as it is never more than the greatest distance. -/
theorem fits_leap {op : Opcode} {m : Nat} (hop : op.width = 2) (hm : m ≤ Expr.maxLeap) :
    (⟨op, m⟩ : Instr).Fits := by
  rw [Instr.Fits, hop]
  exact Nat.lt_succ_of_le hm

/-- A jump goes on behind its distance, with the stack as it is. -/
theorem ending_jump {m : Nat} (h : c.At n (after.prepend line [⟨.jump, m⟩]))
    (hm : m ≤ Expr.maxLeap) : ending o c ⟨n, s, k⟩ = ending o c ⟨n + 3 + m, s, k⟩ :=
  ending_perform h (fits_leap rfl hm)

/-- A conditional jump goes on behind its distance if the top value is false, and leaves it there in
any case. -/
theorem ending_jumpIfFalse {m : Nat} {v : Value}
    (h : c.At n (after.prepend line [⟨.jumpIfFalse, m⟩])) (hm : m ≤ Expr.maxLeap) :
    ending o c ⟨n, s.push v, k⟩ =
      ending o c ⟨if v.isTruthy then n + 3 else n + 3 + m, s.push v, k⟩ := by
  have hending := ending_perform (o := o) (s := s.push v) (k := k) h (fits_leap rfl hm)
  simp only [perform, taking_push] at hending
  by_cases hv : v.isTruthy = true
  · rw [if_pos hv] at hending ⊢
    exact hending
  · rw [if_neg hv] at hending ⊢
    exact hending

/-- A logical operator jumps over its right operand if the left one decides; otherwise it drops the
left one and goes on with the right. -/
theorem leads_logic (op : LogicOp) {r : Expr} {v : Value} {x : Except RuntimeError Value}
    (h : c.At n ((r.codeThen c.consts after).prepend line (Expr.logicCode op r.size)))
    (hleap : r.size < Expr.maxLeap)
    (hr : ∀ m, c.At m (r.codeThen c.consts after) → Leads o c ⟨m, s, k⟩ (m + r.size) s x) :
    Leads o c ⟨n, s.push v, k⟩ (n + (Expr.logicSize op + r.size)) s
      (if op.decides v then .ok v else x) := by
  have hmin : min (r.size + 1) Expr.maxLeap = r.size + 1 := Nat.min_eq_left hleap
  cases op with
  | and =>
    have htarget : n + (Expr.logicSize .and + r.size) = n + 3 + 1 + r.size := by
      simp only [Expr.logicSize]
      omega
    rw [Expr.logicCode, hmin, Code.prepend_cons] at h
    have hjump := ending_jumpIfFalse (o := o) (s := s) (k := k) (v := v) h hleap
    have hpop := at_next h
    rw [htarget, LogicOp.decides]
    by_cases hv : v.isTruthy = true
    · rw [if_pos hv] at hjump
      rw [hv, if_neg (by decide)]
      exact (hr _ (at_next hpop)).of_ending (hjump.trans (ending_pop hpop))
    · rw [if_neg hv] at hjump
      rw [Bool.not_eq_true] at hv
      rw [hv, if_pos (by decide), Nat.add_right_comm, Nat.add_assoc (n + 3)]
      exact hjump
  | or =>
    have htarget : n + (Expr.logicSize .or + r.size) = n + 3 + 3 + 1 + r.size := by
      simp only [Expr.logicSize]
      omega
    rw [Expr.logicCode, hmin, Code.prepend_cons] at h
    have hjumpIf := ending_jumpIfFalse (o := o) (s := s) (k := k) (v := v) h (by decide)
    have hjump := at_next h
    rw [Code.prepend_cons] at hjump
    have hpop := at_next hjump
    rw [htarget, LogicOp.decides]
    by_cases hv : v.isTruthy = true
    · rw [if_pos hv] at hjumpIf
      rw [if_pos hv, Nat.add_right_comm, Nat.add_assoc (n + 3 + 3)]
      exact hjumpIf.trans (ending_jump hjump hleap)
    · rw [if_neg hv] at hjumpIf
      rw [if_neg hv]
      exact (hr _ (at_next hpop)).of_ending (hjumpIf.trans (ending_pop hpop))

/-- From the code of an expression a run comes out behind it with the value on top, unless the
expression has a fault: then the run ends with that. -/
theorem leads_eval {e : Tree} (he : e.Fits (Stored c.consts))
    (hconsts : c.consts.length ≤ Pool.capacity) (hafter : after.Counted)
    (h : c.At n (e.expr.codeThen c.consts after)) :
    Leads o c ⟨n, s, k⟩ (n + e.expr.size) s (e.eval o s.height) := by
  induction e generalizing n s after with
  | literal t v => exact leads_literal (Tree.fits_literal_iff.mp he) hconsts h
  | group l e r ih => exact ih (Tree.fits_group_iff.mp he) hafter h
  | unary op t e ih =>
    have hcounted := hafter.prepend t.line [⟨op.opcode, 0⟩]
    change c.At n (e.expr.codeThen c.consts (after.prepend t.line [⟨op.opcode, 0⟩])) at h
    have htarget : n + (Tree.unary op t e).expr.size = n + e.expr.size + 1 := by
      rw [Tree.expr, Expr.size, Expr.sizeThen, Expr.sizeThen_eq]
      omega
    rw [htarget]
    refine (ih (Tree.fits_unary_iff.mp he) hcounted h).bind fun v hv => ?_
    exact leads_unary op (h.codeThen hcounted) (Tree.lt_limit_of_eval hv)
  | binary op t l r ihl ihr =>
    obtain ⟨hl, hr⟩ := Tree.fits_binary_iff.mp he
    have hop := hafter.prepend t.line (op.opcodes.map (⟨·, 0⟩))
    have hright := Expr.counted_codeThen c.consts r.expr hop
    change c.At n (l.expr.codeThen c.consts (r.expr.codeThen c.consts
      (after.prepend t.line (op.opcodes.map (⟨·, 0⟩))))) at h
    have htarget : n + (Tree.binary op t l r).expr.size =
        n + l.expr.size + r.expr.size + op.opcodes.length := by
      rw [Tree.expr, Expr.size, Expr.sizeThen, Expr.sizeThen_eq, Expr.sizeThen_eq]
      omega
    rw [htarget]
    refine (ihl hl hright h).bind fun v hv => (ihr hr hop (h.codeThen hright)).bind fun w _ => ?_
    exact leads_binary op ((h.codeThen hright).codeThen hop) (Tree.lt_limit_of_eval hv)
  | logic op t l r ihl ihr =>
    obtain ⟨⟨hl, hr⟩, hleap⟩ := Tree.fits_logic_iff.mp he
    have hright := Expr.counted_codeThen c.consts r.expr hafter
    have hop := hright.prepend t.line (Expr.logicCode op r.expr.size)
    have hleft : c.At n (l.expr.codeThen c.consts
        ((r.expr.codeThen c.consts after).prepend t.line (Expr.logicCode op r.expr.size))) := by
      rw [Tree.expr, Expr.codeThen_logic] at h
      exact h
    have htarget : n + (Tree.logic op t l r).expr.size =
        n + l.expr.size + (Expr.logicSize op + r.expr.size) := by
      rw [Tree.expr, Expr.size, Expr.sizeThen, Expr.sizeThen_eq, Expr.sizeThen_eq]
      omega
    rw [htarget]
    refine (ihl hl hop hleft).bind fun v _ => ?_
    exact leads_logic op (hleft.codeThen hop) hleap fun m hm => ihr hr hafter hm

/-! ## Programs -/

/-- The code of some statements, and then `after`. -/
def sentencesThen (pool : Pool) (after : Code) : List Sentence → Code
  | [] => after
  | σ :: p =>
    σ.tree.expr.codeThen pool
      ((Program.useOfSentence p.isEmpty σ).codeThen (sentencesThen pool after p))

/-- Whether the last statement of a program gives its result. -/
def givesResult : List Sentence → Bool
  | [] => false
  | .print .. :: p => givesResult p
  | .expr .. :: p => p.isEmpty || givesResult p

/-- The instructions that end a program. -/
def returnCode (endLine : Nat) (result : Bool) : Code :=
  Code.prepend endLine (if result then [⟨.ret, 0⟩] else [⟨.pushNil, 0⟩, ⟨.ret, 0⟩]) {}

/-- The code that ends a program has a line for every byte. -/
theorem counted_returnCode (endLine : Nat) (result : Bool) : (returnCode endLine result).Counted :=
  Code.counted_empty.prepend ..

/-- The code of some statements has a line for every byte if what follows has. -/
theorem counted_sentencesThen (pool : Pool) (hafter : after.Counted) (p : List Sentence) :
    (sentencesThen pool after p).Counted := by
  induction p with
  | nil => exact hafter
  | cons σ p ih =>
    refine Expr.counted_codeThen pool _ ?_
    cases Program.useOfSentence p.isEmpty σ with
    | print line => exact ih.prepend ..
    | drop line => exact ih.prepend ..
    | result => exact ih
    | nothing => exact ih

/-- A run that returns ends with the value on top. -/
theorem ending_return {v : Value} {endLine : Nat} (h : c.At n (returnCode endLine true)) :
    ending o c ⟨n, s.push v, k⟩ = (.ok v, k) :=
  ending_perform h (fits_of_width rfl)

/-- Without a result `nil` is returned, if there is room for it. -/
theorem ending_returnNil {endLine : Nat} (h : c.At n (returnCode endLine false)) :
    ending o c ⟨n, .empty, k⟩ = evalProgram o endLine [] k := by
  rw [returnCode, if_neg (by decide), Code.prepend_cons] at h
  have hpush : ending o c ⟨n, .empty, k⟩ =
      if o.limit ≤ 0 then (.error (.fault ⟨.overflow o.limit, endLine⟩), k)
      else ending o c ⟨n + 1, Stack.empty.push .nil, k⟩ :=
    ending_pushing h (fits_of_width rfl) rfl
  rw [hpush, evalProgram]
  by_cases hfull : o.limit ≤ 0
  · rw [if_pos hfull, if_pos hfull]
  · rw [if_neg hfull, if_neg hfull]
    exact ending_return (at_next h)

/-- What is printed is written to the sink, and the run goes on if the sink takes it. -/
theorem ending_print {v : Value} (h : c.At n (after.prepend line [⟨.print, 0⟩])) :
    ending o c ⟨n, s.push v, k⟩ =
      match Sink.write k (v.printed ++ [0x0A]) with
      | (k, some reason) => (.error (.refused reason), k)
      | (k, none) => ending o c ⟨n + 1, s, k⟩ := by
  have hending := ending_perform (o := o) (s := s.push v) (k := k) h (fits_of_width rfl)
  simp only [perform, taking_push] at hending
  rcases hwrite : Sink.write k (v.printed ++ [0x0A]) with ⟨k', _ | reason⟩ <;>
    rw [hwrite] at hending <;> exact hending

/-- The expression of a statement is evaluated with no operand held. -/
theorem ending_eval {e : Tree} (he : e.Fits (Stored c.consts))
    (hconsts : c.consts.length ≤ Pool.capacity) (hafter : after.Counted)
    (h : c.At n (e.expr.codeThen c.consts after)) :
    ending o c ⟨n, .empty, k⟩ =
      match e.eval o 0 with
      | .error err => (.error (.fault err), k)
      | .ok v => ending o c ⟨n + e.expr.size, Stack.empty.push v, k⟩ := by
  have hleads : Leads o c ⟨n, .empty, k⟩ (n + e.expr.size) .empty (e.eval o 0) :=
    leads_eval he hconsts hafter h
  cases hv : e.eval o 0 with
  | error err =>
    rw [hv] at hleads
    exact hleads
  | ok v =>
    rw [hv] at hleads
    exact hleads

/-- From the code of a program, run on an empty stack, the run ends as the program means. -/
theorem ending_program {p : List Sentence} {endLine : Nat}
    (hp : ∀ σ ∈ p, σ.tree.Fits (Stored c.consts)) (hconsts : c.consts.length ≤ Pool.capacity)
    (h : c.At n (sentencesThen c.consts (returnCode endLine (givesResult p)) p)) :
    ending o c ⟨n, .empty, k⟩ = evalProgram o endLine p k := by
  induction p generalizing n k with
  | nil => exact ending_returnNil h
  | cons σ p ih =>
    have hrest : ∀ τ ∈ p, τ.tree.Fits (Stored c.consts) :=
      fun τ hτ => hp τ (List.mem_cons_of_mem _ hτ)
    have hcounted := counted_sentencesThen c.consts (counted_returnCode endLine (givesResult p)) p
    cases σ with
    | print w e semicolon =>
      have htree : e.Fits (Stored c.consts) := hp _ List.mem_cons_self
      change c.At n (e.expr.codeThen c.consts (Code.prepend semicolon.line [⟨.print, 0⟩]
        (sentencesThen c.consts (returnCode endLine (givesResult p)) p))) at h
      have huse := hcounted.prepend semicolon.line [⟨.print, 0⟩]
      have hprint := h.codeThen huse
      rw [evalProgram, ending_eval htree hconsts huse h]
      cases e.eval o 0 with
      | error err => rfl
      | ok v =>
        dsimp only
        rw [ending_print hprint]
        rcases Sink.write k (v.printed ++ [0x0A]) with ⟨k', _ | reason⟩
        · exact ih hrest (at_next hprint)
        · rfl
    | expr e semicolon? =>
      have htree : e.Fits (Stored c.consts) := hp _ List.mem_cons_self
      cases p with
      | nil =>
        change c.At n (e.expr.codeThen c.consts (returnCode endLine true)) at h
        have huse := counted_returnCode endLine true
        rw [evalProgram, ending_eval htree hconsts huse h]
        cases e.eval o 0 with
        | error err => rfl
        | ok v => exact ending_return (h.codeThen huse)
      | cons τ p =>
        have hdrop : ∃ line, c.At n (e.expr.codeThen c.consts (Code.prepend line [⟨.pop, 0⟩]
            (sentencesThen c.consts (returnCode endLine (givesResult (τ :: p))) (τ :: p)))) :=
          ⟨_, h⟩
        obtain ⟨line, h⟩ := hdrop
        have huse := hcounted.prepend line [⟨.pop, 0⟩]
        have hpop := h.codeThen huse
        rw [evalProgram, ending_eval htree hconsts huse h]
        cases e.eval o 0 with
        | error err => rfl
        | ok v => exact (ending_pop hpop).trans (ih hrest (at_next hpop))

/-! ## Sources -/

/-- In a pool of literals each one that is not lacking stands in its slot. -/
theorem stored_of_lacks {pool : Pool} {v : Value} (hpool : Pool.Regular pool) (hv : v.Regular)
    (h : pool.lacks v = false) : Stored pool v := by
  intro hpooled
  rw [Pool.lacks, hpooled, Bool.true_and] at h
  obtain ⟨i, hi⟩ := Option.isSome_iff_exists.mp (Option.isNone_eq_false_iff.mp h)
  rw [hi]
  exact Pool.getElem?_slot? hpool hv hi

/-- The statements of a program within the limits fit the pool of its literals. -/
theorem fits_of_admitted {ts : List Token} {p : List Sentence} (h : Sentences ts p)
    (hadmitted : Program.Admitted [] p) :
    ∀ σ ∈ p, σ.tree.Fits (Stored (Pool.addAll [] (literals p))) := by
  have hregular := Program.regular_literals h
  obtain ⟨hconstants, hleaps⟩ := (Program.admitted_nil_iff h).mp hadmitted
  have hslots := (Pool.lacks_iff_distinct hregular).mpr hconstants
  intro σ hσ
  refine ⟨fun v hv => ?_, fun r hr => hleaps r (List.mem_flatMap.mpr ⟨σ, hσ, hr⟩)⟩
  have hmem : v ∈ literals p := List.mem_flatMap.mpr ⟨σ, hσ, hv⟩
  exact stored_of_lacks ((Pool.holds_addAll hregular).regular hregular) (hregular v hmem)
    (hslots v hmem)

end Machine

namespace Program

/-- The last statement leaves a result just when the program has one. -/
theorem hasResult_actionsOf (p : List Sentence) :
    ((actionsOf p).getLast?.map Action.use == some .result) = Machine.givesResult p := by
  induction p with
  | nil => rfl
  | cons σ p ih =>
    cases p with
    | nil => cases σ <;> rfl
    | cons τ p =>
      rw [actionsOf, actionsOf, List.getLast?_cons_cons, ← actionsOf, ih]
      cases σ <;> rfl

/-- The code of a program is that of its statements, and then that of the return. -/
theorem code_eq (p : List Sentence) (pool : Pool) (errors : List Diagnostic) (endLine : Nat) :
    (Program.mk (actionsOf p) pool errors endLine).code =
      Machine.sentencesThen pool (Machine.returnCode endLine (Machine.givesResult p)) p := by
  rw [code, ending, hasResult, hasResult_actionsOf, Machine.returnCode]
  generalize Code.prepend _ _ _ = after
  induction p with
  | nil => rfl
  | cons σ p ih => rw [actionsOf, List.foldr_cons, ih, Machine.sentencesThen]

end Program

/-- The chunk of an accepted source is made from the program that the source is. -/
theorem exists_program_of_compile {source : Bytes} {c : Chunk} (h : compile source = .ok c) :
    ∃ p, Sentences (Token.scan (Utf8.decode source)).tokens p ∧ Program.Admitted [] p ∧
      c = .ofCode
        (Machine.sentencesThen (Pool.addAll [] (literals p))
          (Machine.returnCode (Token.scan (Utf8.decode source)).endLine (Machine.givesResult p)) p)
        (Pool.addAll [] (literals p)) := by
  rw [compile_eq] at h
  split at h
  · rename_i hempty
    obtain ⟨hstray, p, hp, hadmitted⟩ :=
      Program.sentences_of_ofSource (List.isEmpty_iff.mp hempty)
    refine ⟨p, hp, hadmitted, ?_⟩
    rw [← Except.ok.inj h, Compilation.ofSource, Compilation.ofProgram,
      Program.ofSource_of_sentences hstray hp hadmitted, Program.code_eq]
  · cases h

namespace Machine

/-- To run the chunk of a source is to evaluate the program that the source is. -/
theorem run_program {κ : Type} [Sink κ] {source : Bytes} {c : Chunk} {p : List Sentence}
    (h : compile source = .ok c) (hp : Sentences (Token.scan (Utf8.decode source)).tokens p)
    (o : Options) (k : κ) :
    ((run o c k).result, (run o c k).console) =
      evalProgram o (Token.scan (Utf8.decode source)).endLine p k := by
  obtain ⟨q, hq, hadmitted, rfl⟩ := exists_program_of_compile h
  obtain rfl := sentences_unique hp hq
  rw [run_ending]
  exact ending_program (fits_of_admitted hp hadmitted)
    (Pool.holds_addAll (Program.regular_literals hp)).length_le (Chunk.at_ofCode _ _)

/-- The compiler is correct: an accepted source is one program of the grammar and no other, and to
run its chunk, with any options and any sink, is to evaluate that program. -/
theorem run_compile {source : Bytes} {c : Chunk} (h : compile source = .ok c) :
    ∃ p, (Sentences (Token.scan (Utf8.decode source)).tokens p ∧
        ∀ q, Sentences (Token.scan (Utf8.decode source)).tokens q → q = p) ∧
      ∀ (κ : Type) [Sink κ] (o : Options) (k : κ),
        ((run o c k).result, (run o c k).console) =
          evalProgram o (Token.scan (Utf8.decode source)).endLine p k := by
  obtain ⟨p, hp, hadmitted, rfl⟩ := exists_program_of_compile h
  have hregular := Program.regular_literals hp
  refine ⟨p, ⟨hp, fun q hq => sentences_unique hq hp⟩, fun κ _ o k => ?_⟩
  rw [run_ending]
  exact ending_program (fits_of_admitted hp hadmitted) (Pool.holds_addAll hregular).length_le
    (Chunk.at_ofCode _ _)

/-- A source of two statements, with a jump, constants and operators on both lines. -/
def twoLines : Bytes :=
  Utf8.ofString "print nil or \"a\" + \"b\";\n!(1 < 2)"

/-- That source is accepted, and its run prints what the program prints. -/
theorem run_compile_twoLines : ∃ c, compile twoLines = .ok c ∧
    (∃ p, Sentences (Token.scan (Utf8.decode twoLines)).tokens p ∧
      ((run {} c ({} : Console)).result, (run {} c ({} : Console)).console) =
        evalProgram {} (Token.scan (Utf8.decode twoLines)).endLine p {}) ∧
    (run {} c ({} : Console)).console.output = Utf8.ofString "ab\n" := by
  have hcompile : compile twoLines = .ok (Compilation.ofSource twoLines).chunk := by
    rw [compile_eq, if_pos (by decide +kernel)]
  obtain ⟨p, ⟨hp, -⟩, hrun⟩ := run_compile hcompile
  exact ⟨_, hcompile, ⟨p, hp, hrun Console {} {}⟩, by decide +kernel⟩

/-- An empty program gives `nil` only if there is room for it: it is pushed like a literal. -/
theorem run_compile_empty_overflow : ∃ c, compile [] = .ok c ∧
    (run { limit := 0 } c ({} : Console)).result = .error (.fault ⟨.overflow 0, 1⟩) := by
  have hstray : ∀ t ∈ (Token.scan []).tokens, t.kind ≠ .stray := List.forall_mem_nil _
  have hsentences : Sentences (Token.scan []).tokens [] := .nil
  have hprogram : Program.ofSource (Utf8.decode []) = ⟨[], [], [], 1⟩ :=
    Program.ofSource_of_sentences hstray hsentences trivial
  refine ⟨(Compilation.ofProgram ⟨[], [], [], 1⟩).chunk, ?_, rfl⟩
  rw [compile, Compilation.ofSource, hprogram]
  rfl

end Machine

end Lox
