import Lox.Proofs.Tracking

/-!
# The compiler always has an answer

The one-pass compiler recurs on itself through a table of rules, and loops in four places: over
strays, over operators, over the tokens that recovery passes over, and over statements. Here it is
shown to come to an end on every source, without a breakdown, and with the outcome of `compile`.

The argument follows the tokens that are ahead. `Compiles` says of them that the compiler takes an
expression off them the way it is read, whatever has been made before, and `Continues` says the same
of the operators after an operand. Each is shown for a token and those after it from both of them
for fewer tokens. At the end, where nothing is left to be taken, an expression is a gap and no
operator follows. So an expression takes at least one token before the end, and so does a statement,
with the recovery after it.
-/

namespace Lox

/-! ## Reading past an operand -/

namespace Expr

variable {finish : Token} {rest : List Cell} {e : Expr} {f : Frame} {fs : List Frame}

/-- Where no operator continues an operand, it makes no difference whether one may. -/
theorem parseFrom_of_ends (h : Ends (floorOf fs) rest) :
    parseFrom finish rest (.after true e) fs = parseFrom finish rest (.after false e) fs := by
  cases rest with
  | nil => rfl
  | cons c cs =>
    have hnone : continuing? (floorOf fs) c.token = none :=
      continuing?_eq_none_iff.mpr (h c rfl)
    have hsettle : settle c.token true e fs = settle c.token false e fs := by
      cases fs with
      | nil =>
        rw [floorOf] at hnone
        simp [settle, hnone]
      | cons f fs =>
        rw [floorOf] at hnone
        simp [settle, hnone]
    rw [parseFrom, parseFrom, hsettle]

/-- A frame is completed by its operand, if it is not a group that is closed. -/
theorem parseFrom_frame
    (hf : ∀ paren, f = .group paren → (Statement.upcoming finish rest).kind ≠ .rightParen) :
    parseFrom finish rest (.after false e) (f :: fs) =
      parseFrom finish rest (.after true (f.complete (Statement.upcoming finish rest) e)) fs := by
  cases rest with
  | nil => rfl
  | cons c cs =>
    have hsettle : settle c.token false e (f :: fs) =
        settle c.token true (f.complete c.token e) fs := settle_complete rfl hf
    rw [parseFrom, parseFrom, hsettle]
    rfl

/-- Reading is over when no operator continues the operand and nothing encloses it. -/
theorem parseFrom_done : parseFrom finish rest (.after false e) [] = (e, rest) := by
  cases rest with
  | nil => rfl
  | cons c cs =>
    rw [parseFrom]
    rfl

end Expr

namespace OnePass

open Statement (upcoming)

/-- From these cells reading goes on after the operand `e`, before `rest`, whenever operators of
rank `floor` or above continue an operand. -/
structure Reads (line : Nat) (cells : List Cell) (mode : Expr.Mode) (floor : Nat) (e : Expr)
    (rest : List Cell) : Prop where
  suffix : rest <:+ cells
  regular : Pool.Regular e.literals
  parse : ∀ fs, Expr.floorOf fs = floor →
    Expr.parseFrom (.atEnd line) cells mode fs =
      Expr.parseFrom (.atEnd line) rest (.after false e) fs

/-- The compiler takes an expression off these cells as it is read. -/
def Compiles (line : Nat) (cells : List Cell) : Prop :=
  ∀ (floor : Nat) (last : Token) (m : Made) (s : State), 0 < floor → Stands line cells last m s →
    Ends (s.expression floor) fun s' => ∃ e rest, Reads line cells .operand floor e rest ∧
      Stands line rest e.last
        ((m.expr e).complain (target? floor (upcoming (.atEnd line) rest))) s'

/-- The compiler goes on with an operand as far as it is read. -/
def Continues (line : Nat) (cells : List Cell) : Prop :=
  ∀ (floor : Nat) (l : Expr) (m : Made) (s : State), 0 < floor → Pool.Regular l.literals →
    Stands line cells l.last (m.expr l) s →
    Ends (s.operators floor) fun s' => ∃ e rest, Reads line cells (.after true l) floor e rest ∧
      Stands line rest e.last (m.expr e) s'

variable {line : Nat} {cells cs : List Cell} {c : Cell} {last : Token} {m : Made} {s : State}

/-- No attempt to assign is looked for within an operator. -/
theorem target?_of_lt {floor : Nat} (h : Precedence.assignment.rank < floor) (next : Token) :
    target? floor next = none := by
  rw [target?, if_neg]
  intro htarget
  exact absurd htarget.1 (Nat.not_le_of_lt h)

/-! ## Operators -/

/-- The right operand of a logical operator is leapt over. -/
theorem ends_leap (hcompiles : Compiles line cs) {op : Opcode} (hop : op.width = 2) {floor : Nat}
    (hfloor : Precedence.assignment.rank < floor)
    (h : Stands line cs c.token (m.write (placedOn c.line [⟨op, Expr.maxLeap⟩])) s) :
    Ends ((s.emit c.token.line [Opcode.pop.byte]).expression floor >>=
        fun s => s.patchJump (m.code.length + 1)) fun s' =>
      ∃ r rest, Reads line cs .operand floor r rest ∧
        Stands line rest r.last (((m.write (placedOn c.line
          [⟨op, min (r.size + 1) Expr.maxLeap⟩, ⟨.pop, 0⟩])).expr r).complain
            (Expr.leapComplaint? r r.size)) s' := by
  have hpop := h.emit c.line [⟨.pop, 0⟩]
  rw [Made.write_write] at hpop
  apply (hcompiles floor c.token _ _ (Nat.zero_lt_of_lt hfloor) hpop).bind
  rintro s' ⟨r, rest, hreads, hs'⟩
  obtain ⟨n, qs, hwrite, hcode, hsize⟩ := Made.expr_write r m h.room hreads.regular
  rw [target?_of_lt hfloor, Made.complain_none, hwrite, List.append_assoc] at hs'
  have hlength : ((placedOn c.line [⟨.pop, 0⟩] ++ qs).flatMap fun q => q.instr.encode).length =
      r.size + 1 := by
    rw [List.flatMap_append, List.length_append, hsize]
    exact Nat.add_comm 1 r.size
  rw [← hcode]
  apply (hs'.patchJump hop hlength).mono
  intro s'' hs''
  refine ⟨r, rest, hreads, ?_⟩
  rw [hwrite]
  rw [← List.append_assoc] at hs''
  exact hs''

/-- An operator is compiled with its right operand. -/
theorem ends_operator (hcompiles : Compiles line cs) {l : Expr} {op : Operator}
    (hop : Operator.ofKind? c.token.kind = some op)
    (h : Stands line cs c.token ((m.expr l).complain c.complaint?) s) :
    Ends (s.operator (Joining.ofOperator op)) fun s' =>
      ∃ r rest, Reads line cs .operand op.rightFloor r rest ∧
        Stands line rest r.last
          (m.expr ((Expr.Frame.ofOperator op c l).complete (.atEnd line) r)) s' := by
  cases op with
  | binary op =>
    have hfloor : Precedence.assignment.rank < (Operator.binary op).rightFloor := by
      cases op <;> decide
    rw [Joining.ofOperator, State.operator]
    simp only [h.prev, ruleOf_eq, hop, pure_bind]
    apply (hcompiles _ c.token _ s (Nat.zero_lt_of_lt hfloor) h).bind
    rintro s' ⟨r, rest, hreads, hs'⟩
    rw [target?_of_lt hfloor, Made.complain_none] at hs'
    apply (hs'.emitBinary hop).mono
    intro s'' hs''
    exact ⟨r, rest, hreads, hs''⟩
  | logic op =>
    cases op with
    | and =>
      obtain ⟨s₁, hjump, h₁⟩ := h.emitJump (show Opcode.jumpIfFalse.width = 2 from rfl)
      rw [Joining.ofOperator, State.operator]
      simp only [hjump, h₁.prev]
      exact ends_leap hcompiles rfl (by decide) h₁
    | or =>
      obtain ⟨s₁, hskip, h₁⟩ := h.emitJump (show Opcode.jumpIfFalse.width = 2 from rfl)
      obtain ⟨s₂, hjump, h₂⟩ := h₁.emitJump (show Opcode.jump.width = 2 from rfl)
      rw [Joining.ofOperator, State.operator]
      simp only [hskip, hjump]
      rw [Made.write_write] at h₂
      have hthree : ((placedOn c.token.line [⟨.jump, Expr.maxLeap⟩]).flatMap
          fun q => q.instr.encode).length = 3 := rfl
      apply (h₂.patchJump rfl hthree).bind
      intro s₃ h₃
      have hcode : (((m.expr l).complain c.complaint?).write
          (placedOn c.token.line [⟨.jumpIfFalse, Expr.maxLeap⟩])).code.length =
          (((m.expr l).complain c.complaint?).write
            (placedOn c.token.line [⟨.jumpIfFalse, 3⟩])).code.length := by
        simp [Made.write, placedOn, Instr.size]
      rw [if_neg (by decide), Made.complain_none, ← Made.write_write] at h₃
      rw [hcode, h₃.prev]
      apply (ends_leap hcompiles rfl (by decide) h₃).mono
      rintro s' ⟨r, rest, hreads, hs'⟩
      rw [Made.write_write] at hs'
      exact ⟨r, rest, hreads, hs'⟩

/-- No operator that comes next continues an operand. -/
theorem operators_of_ends {floor : Nat} (hfloor : 0 < floor) (h : Stands line cells last m s)
    (hends : Expr.Ends floor cells) : s.operators floor = pure s := by
  have hrank : (((Operator.ofKind? (upcoming (.atEnd line) cells).kind).map levelOf).getD
      .none).rank < floor := by
    cases hop : Operator.ofKind? (upcoming (.atEnd line) cells).kind with
    | none => exact hfloor
    | some op =>
      rw [Option.map_some, Option.getD_some, rank_levelOf]
      cases cells with
      | nil => cases hop
      | cons c cs => exact hends c rfl op hop
  rw [State.operators, h.curr, ruleOf_eq, pure_bind, if_pos hrank]

/-- An operand that no operator continues has been read. -/
theorem Reads.of_ends {floor : Nat} {l : Expr} (hends : Expr.Ends floor cells)
    (hl : Pool.Regular l.literals) : Reads line cells (.after true l) floor l cells where
  suffix := List.suffix_rfl
  regular := hl
  parse := by
    rintro fs rfl
    exact Expr.parseFrom_of_ends hends

/-- At the end of the source nothing continues an operand. -/
theorem continues_nil (line : Nat) : Continues line [] := by
  intro floor l m s hfloor hl h
  rw [operators_of_ends hfloor h (Expr.ends_nil floor)]
  exact ends_pure ⟨l, [], .of_ends (Expr.ends_nil floor) hl, h⟩

/-- An operator is read with its right operand. -/
theorem Reads.operator {floor : Nat} {op : Operator} {l r : Expr} {rest : List Cell}
    (h : Reads line cs .operand op.rightFloor r rest)
    (hop : Operator.ofKind? c.token.kind = some op) (hfloor : floor ≤ op.rank)
    {fs : List Expr.Frame} (hfs : Expr.floorOf fs = floor) :
    Expr.parseFrom (.atEnd line) (c :: cs) (.after true l) fs =
      Expr.parseFrom (.atEnd line) rest
        (.after true ((Expr.Frame.ofOperator op c l).complete (.atEnd line) r)) fs := by
  have hframe : Expr.floorOf (.ofOperator op c l :: fs) = op.rightFloor :=
    Expr.floor_ofOperator op c l
  have hgroup : ∀ paren, Expr.Frame.ofOperator op c l ≠ .group paren := by
    intro paren
    cases op <;> exact Expr.Frame.noConfusion
  have hcomplete : (Expr.Frame.ofOperator op c l).complete (upcoming (.atEnd line) rest) r =
      (Expr.Frame.ofOperator op c l).complete (.atEnd line) r := by
    cases op <;> rfl
  calc Expr.parseFrom (.atEnd line) (c :: cs) (.after true l) fs
      = Expr.parseFrom (.atEnd line) cs .operand (.ofOperator op c l :: fs) :=
        Expr.parseFrom_shift hop (hfs ▸ hfloor)
    _ = Expr.parseFrom (.atEnd line) rest (.after false r) (.ofOperator op c l :: fs) :=
        h.parse _ hframe
    _ = _ := by
        rw [Expr.parseFrom_frame fun paren hparen => absurd hparen (hgroup paren), hcomplete]

/-- An operator has the literals of its operands. -/
theorem literals_complete (op : Operator) (c : Cell) {l r : Expr} (next : Token)
    (hl : Pool.Regular l.literals) (hr : Pool.Regular r.literals) :
    Pool.Regular ((Expr.Frame.ofOperator op c l).complete next r).literals := by
  have happend : Pool.Regular (l.literals ++ r.literals) := List.forall_mem_append.mpr ⟨hl, hr⟩
  cases op with
  | binary op =>
    rw [← Expr.literals_binary op c] at happend
    exact happend
  | logic op =>
    rw [← Expr.literals_logic op c] at happend
    exact happend

/-- The compiler goes on with an operand if it compiles what follows the next token, and goes on
with every operand after that. -/
theorem continues_cons (hcompiles : Compiles line cs)
    (hcontinues : ∀ rest, rest <:+ cs → Continues line rest) : Continues line (c :: cs) := by
  intro floor l m s hfloor hl h
  by_cases hends : Expr.Ends floor (c :: cs)
  · rw [operators_of_ends hfloor h hends]
    exact ends_pure ⟨l, c :: cs, .of_ends hends hl, h⟩
  · -- the next token is an operator that binds tightly enough
    obtain ⟨op, hop, hrank⟩ : ∃ op, Operator.ofKind? c.token.kind = some op ∧ floor ≤ op.rank := by
      by_contra hnone
      apply hends
      intro d hd op hop
      obtain rfl : c = d := by simpa using hd
      by_contra hle
      exact hnone ⟨op, hop, Nat.le_of_not_lt hle⟩
    have hnot : ¬ (levelOf op).rank < floor := by
      rw [rank_levelOf]
      exact Nat.not_lt_of_le hrank
    have hcurr : s.curr = c.token := h.curr
    rw [State.operators, hcurr, ruleOf_eq, hop, pure_bind]
    simp only [Option.map_some, Option.getD_some, if_neg hnot]
    apply h.advance_cons.bind
    intro s₁ h₁
    apply (ends_operator hcompiles hop h₁).bind
    rintro s₂ ⟨r, rest, hreads, h₂⟩
    have hl' := literals_complete op c (.atEnd line) hl hreads.regular
    rw [← Expr.Frame.last_complete (.atEnd line) (.ofOperator op c l) r] at h₂
    apply (hcontinues rest hreads.suffix floor _ m s₂ hfloor hl' h₂).mono
    rintro s₃ ⟨e, rest', hreads', h₃⟩
    refine ⟨e, rest', ⟨?_, hreads'.regular, ?_⟩, h₃⟩
    · exact (hreads'.suffix.trans hreads.suffix).trans (List.suffix_cons c cs)
    · intro fs hfs
      rw [hreads.operator hop hrank hfs, hreads'.parse fs hfs]

/-! ## Expressions -/

/-- An operator that stands before its operand begins one. -/
theorem opening_of_unary {k : Token.Kind} {op : UnaryOp} (h : UnaryOp.ofKind? k = some op) :
    Opening.ofKind? k = some .unary := by
  unfold UnaryOp.ofKind? at h
  split at h
  · rfl
  · rfl
  · cases h

/-- A token that has no rule to begin an operand begins none. -/
theorem opening_of_nothing {t : Token} (h : Expr.start t = .nothing) :
    Opening.ofKind? t.kind = none := by
  unfold Opening.ofKind?
  split <;> rename_i hkind
  all_goals first
    | rfl
    | simp [Expr.start, hkind, UnaryOp.ofKind?] at h

/-- What a token that begins an operand has led to, when these cells are left: the operand is read,
and it has been made. -/
def Begun (line : Nat) (c : Cell) (cs : List Cell) (m : Made) (s : State) : Prop :=
  ∃ e rest, rest <:+ cs ∧ Pool.Regular e.literals ∧
    (∀ fs, Expr.parseFrom (.atEnd line) (c :: cs) .operand fs =
      Expr.parseFrom (.atEnd line) rest (.after true e) fs) ∧
    Stands line rest e.last (m.expr e) s

/-- A parenthesis begins an operand as it is read. -/
theorem ends_grouping (hcompiles : Compiles line cs) (hstart : Expr.start c.token = .group)
    (h : Stands line cs c.token (m.complain c.complaint?) s) :
    Ends (s.operand .grouping) (Begun line c cs m) := by
  have hparse (fs : List Expr.Frame) : Expr.parseFrom (.atEnd line) (c :: cs) .operand fs =
      Expr.parseFrom (.atEnd line) cs .operand (.group c :: fs) := by
    simp only [Expr.parseFrom, hstart]
  rw [State.operand]
  apply (hcompiles _ c.token _ s (by decide) h).bind
  rintro s₁ ⟨e, rest, hreads, h₁⟩
  apply (h₁.consume (by decide) (by decide) .expectRightParen).mono
  rintro s₂ (⟨d, ds, rfl, hclose, h₂⟩ | ⟨hopen, h₂⟩)
  · refine ⟨.group c e (.closed d), ds, (List.suffix_cons d ds).trans hreads.suffix,
      hreads.regular, ?_, h₂⟩
    intro fs
    rw [hparse, hreads.parse _ rfl, Expr.parseFrom, Expr.settle_close hclose]
  · refine ⟨.group c e (.unclosed (upcoming (.atEnd line) rest)), rest, hreads.suffix,
      hreads.regular, ?_, h₂⟩
    intro fs
    rw [hparse, hreads.parse _ rfl, Expr.parseFrom_frame fun _ _ => hopen]
    rfl

/-- An operator before its operand begins one as it is read. -/
theorem ends_unary (hcompiles : Compiles line cs) {op : UnaryOp}
    (hop : UnaryOp.ofKind? c.token.kind = some op)
    (h : Stands line cs c.token (m.complain c.complaint?) s) :
    Ends (s.operand .unary) (Begun line c cs m) := by
  have hstart := Grammar.start_eq_unary_iff.mpr hop
  have hparse (fs : List Expr.Frame) : Expr.parseFrom (.atEnd line) (c :: cs) .operand fs =
      Expr.parseFrom (.atEnd line) cs .operand (.unary op c :: fs) := by
    simp only [Expr.parseFrom, hstart]
  rw [State.operand, h.prev]
  apply (hcompiles _ c.token _ s (by decide) h).bind
  rintro s₁ ⟨e, rest, hreads, h₁⟩
  rw [target?_of_lt (by decide), Made.complain_none] at h₁
  apply (h₁.emitUnary hop).mono
  intro s₂ h₂
  refine ⟨.unary op c e, rest, hreads.suffix, hreads.regular, ?_, h₂⟩
  intro fs
  rw [hparse, hreads.parse _ rfl, Expr.parseFrom_frame]
  · rfl
  · intro paren hparen
    cases hparen

/-- A literal begins an operand as it is read. -/
theorem ends_literal {v : Value} (hv : Grammar.Literal c.token v) (hc : c.token.Proper)
    (h : Stands line cs c.token (m.complain c.complaint?) s) :
    ∃ opening, Opening.ofKind? c.token.kind = some opening ∧
      Ends (s.operand opening) (Begun line c cs m) := by
  have hstart := Grammar.start_eq_literal_iff.mpr hv
  obtain ⟨opening, hopening, hends⟩ := h.operand_literal hc hv
  refine ⟨opening, hopening, hends.mono ?_⟩
  intro s₁ h₁
  refine ⟨.literal c v, cs, List.suffix_rfl, ?_, ?_, h₁⟩
  · intro w hw
    obtain rfl := List.mem_singleton.mp hw
    exact hv.regular
  · intro fs
    simp only [Expr.parseFrom, hstart]

/-- A token begins an operand, or it is taken for one that is missing. -/
theorem begun_or_nothing (hcompiles : Compiles line cs) (hc : c.token.Proper)
    (h : Stands line cs c.token (m.complain c.complaint?) s) :
    (∃ opening, Opening.ofKind? c.token.kind = some opening ∧
        Ends (s.operand opening) (Begun line c cs m)) ∨
      (Opening.ofKind? c.token.kind = none ∧ Expr.start c.token = .nothing) := by
  cases hstart : Expr.start c.token with
  | literal v => exact .inl (ends_literal (Grammar.start_eq_literal_iff.mp hstart) hc h)
  | group =>
    have hkind := Grammar.start_eq_group_iff.mp hstart
    exact .inl ⟨.grouping, by rw [hkind]; rfl, ends_grouping hcompiles hstart h⟩
  | unary op =>
    have hop := Grammar.start_eq_unary_iff.mp hstart
    exact .inl ⟨.unary, opening_of_unary hop, ends_unary hcompiles hop h⟩
  | nothing => exact .inr ⟨opening_of_nothing hstart, rfl⟩

/-- At the end of the source an expression is missing, and the compiler complains as reading does.
-/
theorem compiles_nil (line : Nat) : Compiles line [] := by
  intro floor last m s _ h
  rw [State.expression]
  apply h.advance_nil.bind
  intro s₁ h₁
  rw [h₁.prev, ruleOf_eq, pure_bind]
  refine ends_pure ⟨.missing ⟨.atEnd line, []⟩, [], ⟨List.suffix_rfl, ?_, ?_⟩, ?_⟩
  · exact List.forall_mem_nil _
  · intro fs _
    rfl
  · have hnone : target? floor (.atEnd line) = none := by
      rw [target?, if_neg]
      exact fun htarget => by cases htarget.2
    have herror := h₁.errorAt (.atEnd line) .expectExpression
    rw [upcoming, hnone]
    exact herror

/-- The compiler takes an expression as it is read if it does so after the first token, and goes on
with every operand after that. -/
theorem compiles_cons (hcompiles : Compiles line cs)
    (hcontinues : ∀ rest, rest <:+ cs → Continues line rest) : Compiles line (c :: cs) := by
  intro floor last m s hfloor h
  have hc := (h.proper c List.mem_cons_self).token
  rw [State.expression]
  apply h.advance_cons.bind
  intro s₁ h₁
  rw [h₁.prev, ruleOf_eq, pure_bind]
  rcases begun_or_nothing hcompiles hc h₁ with ⟨opening, hopening, hbegun⟩ | ⟨hopening, hstart⟩
  · simp only [hopening]
    apply hbegun.bind
    rintro s₂ ⟨l, rest, hsuffix, hl, hparse, h₂⟩
    apply (hcontinues rest hsuffix floor l m s₂ hfloor hl h₂).bind
    rintro s₃ ⟨e, rest', hreads, h₃⟩
    have hreads' : Reads line (c :: cs) .operand floor e rest' := by
      refine ⟨(hreads.suffix.trans hsuffix).trans (List.suffix_cons c cs), hreads.regular, ?_⟩
      intro fs hfs
      rw [hparse, hreads.parse fs hfs]
    -- after the expression there is still an attempt to assign to complain about
    by_cases htarget : floor ≤ Precedence.assignment.rank ∧
        (upcoming (.atEnd line) rest').kind = .equal
    · rw [h₃.curr, if_pos htarget]
      refine ends_pure ⟨e, rest', hreads', ?_⟩
      rw [target?, if_pos htarget]
      exact h₃.errorAt ..
    · rw [h₃.curr, if_neg htarget]
      refine ends_pure ⟨e, rest', hreads', ?_⟩
      rw [target?, if_neg htarget]
      exact h₃
  · simp only [hopening]
    have herror := h₁.errorAt c.token .expectExpression
    refine ends_pure ⟨.missing c, cs, ⟨List.suffix_cons c cs, ?_, ?_⟩, ?_⟩
    · exact List.forall_mem_nil _
    · intro fs _
      simp only [Expr.parseFrom, hstart]
    · rw [Made.expr, Made.complain_complain _ (some _)]
      exact herror

/-- Expressions are compiled as they are read, and so are operators after an operand. -/
theorem compiles_and_continues (line : Nat) (cells : List Cell) :
    Compiles line cells ∧ Continues line cells := by
  induction hn : cells.length using Nat.strongRecOn generalizing cells with
  | _ n ih =>
    cases cells with
    | nil => exact ⟨compiles_nil line, continues_nil line⟩
    | cons c cs =>
      have hlt : cs.length < n := by
        rw [← hn]
        exact Nat.lt_succ_self _
      have hcompiles := (ih _ hlt cs rfl).1
      have hcontinues : ∀ rest, rest <:+ cs → Continues line rest := by
        intro rest hsuffix
        exact (ih _ (Nat.lt_of_le_of_lt hsuffix.length_le hlt) rest rfl).2
      exact ⟨compiles_cons hcompiles hcontinues, continues_cons hcompiles hcontinues⟩

/-! ## Statements -/

/-- A statement that does not end at the end of the source ends at a semicolon, or one is missed. -/
theorem ends_semicolon {print? : Option Cell} {e : Expr} {rest : List Cell} {st : Statement}
    (hst : st = ⟨print?, e, (Statement.readEnding (.atEnd line) print?.isSome rest).1⟩)
    (hrest : rest ≠ [] ∨ print?.isSome = true)
    (h : Stands line rest e.last
      (m.complain (target? Precedence.assignment.rank (upcoming (.atEnd line) rest))) s) :
    Ends (s.consume .semicolon st.due)
      (Stands line (Statement.readEnding (.atEnd line) print?.isSome rest).2 st.last
        (m.complain st.endComplaint?)) := by
  apply (h.consume (by decide) (by decide) st.due).mono
  rintro s' (⟨d, ds, rfl, hkind, hs'⟩ | ⟨hkind, hs'⟩)
  · have hended : Statement.readEnding (.atEnd line) print?.isSome (d :: ds) =
        (.semicolon d, ds) := by
      simp [Statement.readEnding, Statement.semicolon?, hkind]
    rw [hended] at hst ⊢
    subst hst
    exact hs'
  · have hsemicolon : Statement.semicolon? rest = none := by
      cases rest with
      | nil => rfl
      | cons d ds => exact if_neg hkind
    have hnot : ¬ (rest.isEmpty && !print?.isSome) = true := by
      rcases hrest with hne | hprint
      · simp [hne]
      · simp [hprint]
    have hended : Statement.readEnding (.atEnd line) print?.isSome rest =
        (.unended (upcoming (.atEnd line) rest), rest) := by
      rw [Statement.readEnding, hsemicolon]
      exact if_neg hnot
    rw [hended] at hst ⊢
    subst hst
    exact hs'

/-- The value of an expression statement is dropped, or left as the result at the end. -/
theorem Stands.useValue (h : Stands line cells last m s) :
    Ends s.useValue
      (Stands line cells last (m.use (if m.quiet then .nothing
        else if cells.isEmpty then .result else .drop last.line))) := by
  rw [State.useValue, h.panicking]
  by_cases hquiet : m.quiet = true
  · rw [if_pos hquiet, if_pos hquiet]
    exact ends_pure h
  · rw [if_neg hquiet, if_neg hquiet]
    by_cases heof : cells = []
    · rw [if_pos (h.curr_eof_iff.mpr heof), heof]
      rw [heof] at h
      obtain ⟨hsound, hproper, hscans⟩ := h
      have hsound' : Made.Sound { m with result := true } _ :=
        ⟨hsound.room, hsound.blamed, hsound.spilled⟩
      exact ends_pure ⟨hsound', hproper, hscans⟩
    · have hempty : ¬ cells.isEmpty = true := by simpa using heof
      rw [if_neg fun hkind => heof (h.curr_eof_iff.mp hkind), if_neg hempty, h.prev]
      exact ends_pure (h.emit last.line [⟨.pop, 0⟩])

/-- To read from an assignment on is to read a whole expression. -/
theorem parse_of_reads {e : Expr} {rest : List Cell}
    (h : Reads line cells .operand Precedence.assignment.rank e rest) :
    Expr.parse (.atEnd line) cells = (e, rest) := by
  rw [Expr.parse, h.parse [] rfl, Expr.parseFrom_done]

/-- A statement without `print` is compiled as it is read. -/
theorem ends_expressionStatement (hprint : c.token.kind ≠ .kwPrint)
    (h : Stands line (c :: cs) last m s) :
    Ends s.expressionStatement
      (Stands line (Statement.parse (.atEnd line) c cs).2
        (Statement.parse (.atEnd line) c cs).1.last
        (m.take (Statement.parse (.atEnd line) c cs).1
          (Statement.parse (.atEnd line) c cs).2)) := by
  rw [State.expressionStatement]
  apply ((compiles_and_continues line (c :: cs)).1 _ last m s (by decide) h).bind
  rintro s₁ ⟨e, rest, hreads, h₁⟩
  have hparse : Statement.parse (.atEnd line) c cs =
      (⟨none, e, (Statement.readEnding (.atEnd line) false rest).1⟩,
        (Statement.readEnding (.atEnd line) false rest).2) := by
    simp [Statement.parse, hprint, parse_of_reads hreads]
  rw [hparse]
  generalize hst : (⟨none, e, (Statement.readEnding (.atEnd line) false rest).1⟩ : Statement) = st
  have hended : Ends s₁.endExpression
      (Stands line (Statement.readEnding (.atEnd line) false rest).2 st.last
        ((m.expr e).complain st.endComplaint?)) := by
    rw [State.endExpression]
    by_cases heof : rest = []
    · rw [if_pos (h₁.curr_eof_iff.mpr heof)]
      subst heof hst
      exact ends_pure h₁
    · rw [if_neg fun hkind => heof (h₁.curr_eof_iff.mp hkind)]
      have hdue : st.due = .expectEndOfExpression := by
        rw [← hst]
        rfl
      rw [← hdue]
      exact @ends_semicolon line _ s₁ none e rest st hst.symm (.inl heof) h₁
  apply hended.bind
  intro s₂ h₂
  have hexpr : st.expr = e := by rw [← hst]
  have hnone : st.print? = none := by rw [← hst]
  apply h₂.useValue.mono
  intro s₃ h₃
  rw [Made.take, Program.useOf, hnone, hexpr]
  exact h₃

/-- A statement with `print` is compiled as it is read. -/
theorem ends_printStatement (hprint : c.token.kind = .kwPrint)
    (h : Stands line cs c.token (m.complain c.complaint?) s) :
    Ends s.printStatement
      (Stands line (Statement.parse (.atEnd line) c cs).2
        (Statement.parse (.atEnd line) c cs).1.last
        (m.take (Statement.parse (.atEnd line) c cs).1
          (Statement.parse (.atEnd line) c cs).2)) := by
  rw [State.printStatement]
  apply ((compiles_and_continues line cs).1 _ c.token _ s (by decide) h).bind
  rintro s₁ ⟨e, rest, hreads, h₁⟩
  have hparse : Statement.parse (.atEnd line) c cs =
      (⟨some c, e, (Statement.readEnding (.atEnd line) true rest).1⟩,
        (Statement.readEnding (.atEnd line) true rest).2) := by
    simp [Statement.parse, hprint, parse_of_reads hreads]
  rw [hparse]
  generalize hst : (⟨some c, e, (Statement.readEnding (.atEnd line) true rest).1⟩ : Statement) = st
  have hdue : st.due = .expectEndOfValue := by
    rw [← hst]
    rfl
  rw [← hdue]
  apply (@ends_semicolon line _ s₁ (some c) e rest st hst.symm (.inr rfl) h₁).bind
  intro s₂ h₂
  have hexpr : st.expr = e := by rw [← hst]
  have hsome : st.print? = some c := by rw [← hst]
  rw [Made.take, Program.useOf, hsome, hexpr, h₂.prev]
  exact ends_pure (h₂.emit st.last.line [⟨.print, 0⟩])

/-- Recovery passes over tokens as it is read. -/
theorem ends_passOver (cells : List Cell) (found : Option Diagnostic)
    (h : Stands line cells last (m.complain found) s) :
    Ends s.passOver fun s' => ∃ last',
      Stands line (Program.recover (last.kind = .semicolon) cells found).1 last'
        (m.complain (Program.recover (last.kind = .semicolon) cells found).2) s' := by
  induction cells generalizing last found s with
  | nil =>
    rw [State.passOver, if_pos (h.curr_eof_iff.mpr rfl)]
    exact ends_pure ⟨last, h⟩
  | cons c cs ih =>
    have hcurr : s.curr = c.token := h.curr
    have heof : ¬ s.curr.kind = .eof := fun hkind =>
      absurd (h.curr_eof_iff.mp hkind) (List.cons_ne_nil c cs)
    rw [State.passOver, if_neg heof, h.prev, hcurr, Program.recover]
    by_cases hstop : last.kind = .semicolon ∨ c.token.kind = .kwPrint
    · rw [if_pos hstop, if_pos (by simpa using hstop)]
      exact ends_pure ⟨last, h⟩
    · rw [if_neg hstop, if_neg (by simpa using hstop)]
      apply h.advance_cons.bind
      intro s₁ h₁
      rw [Made.complain_complain] at h₁
      exact ih _ h₁

/-- Where reading stands after a statement and the recovery from it. -/
def after (line : Nat) (m : Made) (c : Cell) (cs : List Cell) : Made × List Cell :=
  let read := Statement.parse (.atEnd line) c cs
  (m.take read.1 read.2).resume read.1 read.2

/-- The compiler recovers as the reading of statements does. -/
theorem Stands.recover {st : Statement} (h : Stands line cells st.last m s) :
    Ends s.recover fun s' => ∃ last',
      Stands line (m.resume st cells).2 last' (m.resume st cells).1 s' := by
  rw [State.recover, Made.resume, h.panicking]
  by_cases hquiet : m.quiet = true
  · rw [if_pos hquiet, if_pos hquiet]
    have hloud : Stands line cells st.last { m with quiet := false }
        { s with panicking := false } := by
      obtain ⟨hsound, hproper, hscans⟩ := h
      have hsound' : Made.Sound { m with quiet := false } _ :=
        ⟨hsound.room, fun hfalse => absurd hfalse Bool.false_ne_true, hsound.spilled⟩
      exact ⟨hsound', hproper, hscans⟩
    exact ends_passOver cells none hloud
  · rw [if_neg hquiet, if_neg hquiet]
    exact ends_pure ⟨st.last, h⟩

/-- A statement is compiled as it is read, and recovery after it goes as far. -/
theorem ends_statement (h : Stands line (c :: cs) last m s) :
    Ends s.statement fun s' => ∃ last',
      Stands line (after line m c cs).2 last' (after line m c cs).1 s' := by
  have hcurr : s.curr = c.token := h.curr
  rw [State.statement, hcurr]
  by_cases hprint : c.token.kind = .kwPrint
  · rw [if_pos hprint]
    apply h.advance_cons.bind
    intro s₁ h₁
    apply (ends_printStatement hprint h₁).bind
    intro s₂ h₂
    exact h₂.recover
  · rw [if_neg hprint]
    apply (ends_expressionStatement hprint h).bind
    intro s₁ h₁
    exact h₁.recover

/-- A statement takes at least one token, with the recovery after it. -/
theorem exists_taken (line : Nat) (m : Made) (c : Cell) (cs : List Cell) :
    ∃ taken, taken ≠ [] ∧ c :: cs = taken ++ (after line m c cs).2 := by
  have hfrom : ∀ cells : List Cell, ∀ d ∈ cells, d.From fun _ => True :=
    fun _ d _ => ⟨trivial, fun _ _ => trivial⟩
  have hread : (Statement.parse (.atEnd line) c cs).2 <:+ c :: cs :=
    (Statement.parse_from trivial (hfrom (c :: cs))).2
  have hlt := Statement.length_parse_lt (.atEnd line) c cs
  rw [after]
  generalize Statement.parse (.atEnd line) c cs = read at hread hlt ⊢
  have hresume : ((m.take read.1 read.2).resume read.1 read.2).2 <:+ read.2 := by
    rw [Made.resume]
    split
    · exact (Program.recover_from (hfrom read.2) _ blames_none).1
    · exact List.suffix_rfl
  obtain ⟨taken, htaken⟩ := hresume.trans hread
  refine ⟨taken, ?_, htaken.symm⟩
  rintro rfl
  have hle := hresume.length_le
  rw [← htaken, List.nil_append] at hlt
  exact Nat.not_lt_of_le hle hlt

/-! ## Programs -/

/-- The literals of a statement are regular constants. -/
theorem regular_parse (line : Nat) (c : Cell) (cs : List Cell) :
    Pool.Regular (Statement.parse (.atEnd line) c cs).1.expr.literals := by
  have hcells : ∀ d ∈ c :: cs, d.From fun _ => True := fun d _ => ⟨trivial, fun _ _ => trivial⟩
  exact (Statement.parse_from trivial hcells).1.expr.regular

/-- Only the last statement leaves a result. -/
theorem result_after (hresult : m.result = false) (hne : (after line m c cs).2 ≠ []) :
    (after line m c cs).1.result = false := by
  rw [after] at hne ⊢
  generalize Statement.parse (.atEnd line) c cs = read at hne ⊢
  obtain ⟨st, rest⟩ := read
  have hrest : rest ≠ [] := by
    rintro rfl
    apply hne
    rw [Made.resume]
    split <;> rfl
  have huse (quiet : Bool) : Program.useOf st quiet rest ≠ .result := by
    unfold Program.useOf
    split_ifs with hprint hquiet hempty
    · exact Use.noConfusion
    · exact Use.noConfusion
    · exact absurd (List.isEmpty_iff.mp hempty) hrest
    · exact Use.noConfusion
  have htake : (m.take st rest).result = false := by
    rw [Made.take, Made.result_use, Made.result_complain, Made.result_expr, Made.result_complain,
      hresult, Bool.false_or]
    exact beq_false_of_ne (huse _)
  rw [Made.resume]
  split
  · rw [Made.result_complain]
    exact htake
  · exact htake

/-- Statements are compiled as a program is read. -/
theorem ends_statements (p : Program.Progress) (cells : List Cell)
    (h : Stands line cells last m s) (hfollows : m.Follows p)
    (hresult : cells ≠ [] → m.result = false) :
    Ends s.statements fun s' => ∃ m', Stands line [] (.atEnd line) m' s' ∧
      m'.Follows (Program.readFrom (.atEnd line) p cells) := by
  induction hn : cells.length using Nat.strongRecOn generalizing p cells last m s with
  | _ n ih =>
    rw [State.statements]
    cases cells with
    | nil =>
      rw [if_pos (h.curr_eof_iff.mpr rfl), Program.readFrom]
      apply h.advance_nil.mono
      intro s' hs'
      exact ⟨m, hs', hfollows⟩
    | cons c cs =>
      have hfalse := hresult (List.cons_ne_nil c cs)
      obtain ⟨hfollows', hcells⟩ := (hfollows.take hfalse (regular_parse line c cs)
        (Statement.parse (.atEnd line) c cs).2).resume (Statement.parse (.atEnd line) c cs).1
          (Statement.parse (.atEnd line) c cs).2
      obtain ⟨taken, hne, htaken⟩ := exists_taken line m c cs
      have hlt : (after line m c cs).2.length < n := by
        have hpos := List.length_pos_iff.mpr hne
        rw [← hn, htaken, List.length_append]
        omega
      have heof : ¬ s.curr.kind = .eof := fun hkind =>
        absurd (h.curr_eof_iff.mp hkind) (List.cons_ne_nil c cs)
      rw [if_neg heof, Program.readFrom]
      apply (ends_statement h).bind
      rintro s₁ ⟨last', h₁⟩
      rw [← hcells]
      exact ih _ hlt _ _ h₁ hfollows' (result_after hfalse) rfl

/-! ## Sources -/

/-- The compiler starts before the first token of the source. -/
theorem ends_start (source : Bytes) {f : Feed}
    (hf : f = .ofScanned (Token.scan (Utf8.decode source))) :
    Ends (State.start source) fun s => ∃ last,
      Stands (Token.scan (Utf8.decode source)).endLine f.cells last
        (Made.complain {} f.opening?) s := by
  have hproper : ∀ c ∈ f.cells, c.Proper := by
    rw [hf]
    exact Feed.proper_ofScanned _
  have hleading : ∀ t ∈ f.leading, t.kind = .stray := by
    rw [hf]
    exact (Feed.stray_ofScanned _).1
  have hscans := Token.scans_scan (Utf8.decode source)
  rw [← Feed.flatten_ofScanned, ← hf] at hscans
  have hsound : Made.Sound {} [] :=
    ⟨Nat.zero_le _, fun hquiet => absurd hquiet Bool.false_ne_true, fun hne => absurd rfl hne⟩
  obtain ⟨scanner, hrun, hscans'⟩ := @Made.ends_skipStrays {} [] ⟨.leftParen, [], 0⟩
    ⟨Utf8.decode source, 1⟩ f.leading (f.cells.flatMap Cell.tokens) _ hscans hleading
      (Cell.head?_flatMap hproper) ⟨.leftParen, [], 0⟩
  rw [Cell.headD_flatMap] at hrun
  rw [Cell.tail_flatMap] at hscans'
  exact ⟨_, hrun, _, hsound.complain _, hproper, hscans'⟩

/-- The compiler ends the code as the making of it does. -/
theorem Stands.finish (h : Stands line [] (.atEnd line) m s) :
    Stands line [] (.atEnd line) (m.finish line) s.finish := by
  rw [State.finish, h.leavesResult, Made.finish]
  cases m.result with
  | true =>
    simp only [if_pos, h.prev]
    exact h.emit line [⟨.ret, 0⟩]
  | false =>
    have hnil := h.emit line [⟨.pushNil, 0⟩]
    have hret := hnil.emit line [⟨.ret, 0⟩]
    rw [Made.write_write] at hret
    have hprev : (s.emit line [Opcode.pushNil.byte]).prev = .atEnd line := hnil.prev
    simp only [Bool.false_eq_true, if_false, h.prev]
    rw [Token.atEnd, hprev]
    exact hret

/-- What is handed back is a chunk, or at least one error, as `compile` says. -/
def Agrees (source : Bytes) (r : Returned) : Prop :=
  (∃ c, r = ⟨some c, none⟩ ∧ Lox.compile source = .ok c) ∨
    ∃ d ds, r = ⟨none, some (d :: ds)⟩ ∧ Lox.compile source = .error (d :: ds)

/-- What is made of a whole source is what it is compiled to. -/
theorem agrees_of_follows {source : Bytes} {f : Feed}
    (hf : f = .ofScanned (Token.scan (Utf8.decode source))) {p : Program.Progress}
    (hp : Program.ofFeed f = ⟨p.actions.reverse, p.pool, p.errors.reverse, line⟩)
    (hfollows : m.Follows p) (h : Stands line [] (.atEnd line) (m.finish line) s) :
    Agrees source
      (if s.errors.isEmpty then ⟨some s.chunk, none⟩ else ⟨none, some s.errors.reverse⟩) := by
  have hprogram : Program.ofSource (Utf8.decode source) =
      ⟨p.actions.reverse, p.pool, p.errors.reverse, line⟩ := by
    rw [Program.ofSource, ← hf, hp]
  have herrors : s.errors = p.errors := by
    rw [h.errors, ← hfollows.errors]
    rfl
  obtain ⟨hcode, hlines⟩ := hfollows.finish p.errors.reverse line
  rw [Agrees, compile_eq, Compilation.ofSource, hprogram, herrors]
  cases hes : p.errors with
  | nil =>
    left
    have hnone : (m.finish line).errors = [] := by
      rw [← h.errors, herrors, hes]
    refine ⟨_, rfl, ?_⟩
    rw [h.chunk hnone, hcode, hlines, Made.finish, Made.pool_write, hfollows.pool, hes]
    rfl
  | cons e es =>
    right
    have hne : (e :: es).reverse ≠ [] := by simp
    obtain ⟨d, ds, hds⟩ := List.exists_cons_of_ne_nil hne
    refine ⟨d, ds, ?_, ?_⟩
    · rw [hds]
      rfl
    · rw [hds]
      rfl

/-- Compiling in one pass comes to an end, with what `compile` says. -/
theorem ends_compile (source : Bytes) : Ends (compile source) (Agrees source) := by
  generalize hf : Feed.ofScanned (Token.scan (Utf8.decode source)) = f
  have hfinish : f.finish = .atEnd (Token.scan (Utf8.decode source)).endLine := by
    rw [← hf]
    rfl
  rw [compile]
  apply (ends_start source hf.symm).bind
  rintro s₁ ⟨last, h₁⟩
  have hfollows := Made.follows_empty.complain f.opening?
  have hresult : (Made.complain {} f.opening?).result = false := by
    rw [Made.result_complain]
  apply (ends_statements _ f.cells h₁ hfollows fun _ => hresult).bind
  rintro s₂ ⟨m, h₂, hm⟩
  rw [Feed.opening?, ← hfinish] at hm
  refine ends_pure (agrees_of_follows hf.symm ?_ hm h₂.finish)
  rw [Program.ofFeed, hfinish]
  rfl

/-- A run that ends in a state with the property gives no other. -/
theorem Ends.of_eq {α : Type} {r : Run α} {a : α} {P : α → Prop} (h : Ends r P) (hr : r = pure a) :
    P a := by
  obtain ⟨b, hb, hP⟩ := h
  have hsome : some (Except.ok a) = some (Except.ok b) := hr.symm.trans hb
  cases hsome
  exact hP

/-- Between two statements the compiler stands before some of the tokens. -/
theorem Reached.stands {source : Bytes} {s : State} (h : Reached source s) :
    ∃ cells last m, Stands (Token.scan (Utf8.decode source)).endLine cells last m s := by
  induction h with
  | start hstart =>
    obtain ⟨last, hstands⟩ := (ends_start source rfl).of_eq hstart
    exact ⟨_, last, _, hstands⟩
  | turn _ hne hstatement ih =>
    obtain ⟨cells, last, m, hstands⟩ := ih
    cases cells with
    | nil => exact absurd (hstands.curr_eof_iff.mpr rfl) hne
    | cons c cs =>
      obtain ⟨last', hstands'⟩ := (ends_statement hstands).of_eq hstatement
      exact ⟨_, last', _, hstands'⟩

end OnePass

/-- The one-pass compiler has an answer for every source, and the answer is that of `compile`: it
comes to an end without a breakdown, and hands back a chunk and no errors, or no chunk and at least
one error. Each turn of its loop over statements ends as well, and takes at least one token. -/
theorem onePass_total (source : Bytes) :
    (∃ r, (OnePass.compile source).run = some (.ok r) ∧
      ((∃ c, r = ⟨some c, none⟩ ∧ compile source = .ok c) ∨
        ∃ d ds, r = ⟨none, some (d :: ds)⟩ ∧ compile source = .error (d :: ds))) ∧
      ∀ s, OnePass.Reached source s → s.curr.kind ≠ .eof →
        ∃ s', s.statement.run = some (.ok s') ∧
          ∃ taken, taken ≠ [] ∧ s.ahead = taken ++ s'.ahead := by
  constructor
  · exact OnePass.ends_compile source
  · intro s hreached hne
    obtain ⟨cells, last, m, hstands⟩ := hreached.stands
    cases cells with
    | nil => exact absurd (hstands.curr_eof_iff.mpr rfl) hne
    | cons c cs =>
      obtain ⟨s', hs', last', hstands'⟩ := OnePass.ends_statement hstands
      obtain ⟨taken, htaken, hcells⟩ := OnePass.exists_taken _ m c cs
      refine ⟨s', hs', taken.flatMap Cell.tokens, ?_, ?_⟩
      · obtain ⟨d, ds, rfl⟩ := List.exists_cons_of_ne_nil htaken
        exact List.cons_ne_nil _ _
      · rw [hstands.ahead, hstands'.ahead, hcells, List.flatMap_append]

/-- A source in error is answered with its errors, and its first statement takes a token. -/
theorem onePass_total_strayed :
    (OnePass.compile strayed).run = some (.ok ⟨none, some [
        ⟨.expectEndOfExpression, ⟨.number, ['2'], 1⟩⟩, ⟨.stray, ⟨.stray, ['@'], 1⟩⟩]⟩) ∧
      ∃ s, OnePass.Reached strayed s ∧ s.curr.kind ≠ .eof ∧
        ∃ s', s.statement.run = some (.ok s') ∧
          ∃ taken, taken ≠ [] ∧ s.ahead = taken ++ s'.ahead := by
  constructor
  · obtain ⟨⟨r, hrun, ⟨c, -, hok⟩ | ⟨d, ds, hr, herror⟩⟩, -⟩ := onePass_total strayed
    · rw [compile_strayed] at hok
      cases hok
    · rw [compile_strayed] at herror
      cases herror
      rw [hrun, hr]
  · obtain ⟨s, hstart, last, hstands⟩ := OnePass.ends_start strayed rfl
    have hcells : (Feed.ofScanned (Token.scan (Utf8.decode strayed))).cells ≠ [] := by
      decide +kernel
    have hne : s.curr.kind ≠ .eof := fun heof => hcells (hstands.curr_eof_iff.mp heof)
    exact ⟨s, .start hstart, hne, (onePass_total strayed).2 s (.start hstart) hne⟩

end Lox
