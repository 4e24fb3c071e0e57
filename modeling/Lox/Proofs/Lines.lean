import Lox.Compile
import Lox.Proofs.Levels

/-!
# Forgetting lines

Lines are carried along and never looked at. `Token.forget` puts line 0 for the line of a token, and
so does `forget` for everything that is made from tokens: cells, trees, statements, complaints,
code. Each part of the reader commutes with forgetting, and so does the whole: scans that differ in
lines alone become programs that differ in lines alone (`Program.ofFeed_forget`). What is left of a
program without its lines is all that the bytes of its code, its constants and the texts of its
errors depend on.
-/

namespace Lox

/-! ## Tokens and complaints -/

/-- A token, with its line forgotten. -/
def Token.forget (t : Token) : Token :=
  { t with line := 0 }

/-- A cell, with the lines forgotten. -/
def Cell.forget (c : Cell) : Cell :=
  ⟨c.token.forget, c.strays.map .forget⟩

/-- A diagnostic, with its line forgotten. -/
def Diagnostic.forget (d : Diagnostic) : Diagnostic :=
  ⟨d.reason, d.token.forget⟩

/-- The text of a diagnostic says nothing about its line. -/
theorem Diagnostic.text_forget (d : Diagnostic) : d.forget.text = d.text := rfl

/-- The first of two complaints is the first of them with the lines forgotten. -/
theorem Diagnostic.map_forget_orElse (d? e? : Option Diagnostic) :
    (d? <|> e?).map forget = (d?.map forget <|> e?.map forget) := by
  cases d? <;> rfl

/-- The complaint about a token commutes with forgetting the lines. -/
theorem Cell.complaint?_forget (c : Cell) : c.forget.complaint? = c.complaint?.map .forget := by
  simp only [complaint?, forget, List.head?_map, Option.map_map]
  rfl

/-! ## Expressions -/

/-- How a group ends, with the lines forgotten. -/
def Closing.forget : Closing → Closing
  | closed paren => .closed paren.forget
  | unclosed before => .unclosed before.forget

namespace Expr

/-- An expression, with the lines forgotten. -/
def forget : Expr → Expr
  | literal c v => .literal c.forget v
  | missing c => .missing c.forget
  | group c e closing => .group c.forget e.forget closing.forget
  | unary op c e => .unary op c.forget e.forget
  | binary op c l r => .binary op c.forget l.forget r.forget
  | logic op c l r => .logic op c.forget l.forget r.forget

/-- A frame, with the lines forgotten. -/
def Frame.forget : Frame → Frame
  | group c => .group c.forget
  | unary op c => .unary op c.forget
  | binary op c l => .binary op c.forget l.forget
  | logic op c l => .logic op c.forget l.forget

/-- What the token after an operand leads to, with the lines forgotten. -/
def Settled.forget : Settled → Settled
  | shift op e fs => .shift op e.forget (fs.map .forget)
  | close c e fs => .close c.forget e.forget (fs.map .forget)
  | done e => .done e.forget

/-- Where the reader stands, with the lines forgotten. -/
def Mode.forget : Mode → Mode
  | operand => .operand
  | after open_ e => .after open_ e.forget

variable {pool : Pool} {finish next : Token} {e : Expr}

/-- How tightly a construct binds does not depend on lines. -/
theorem Frame.floor_forget (f : Frame) : f.forget.floor = f.floor := by
  cases f <;> rfl

/-- Completing a construct commutes with forgetting the lines. -/
theorem Frame.complete_forget (next : Token) (f : Frame) (e : Expr) :
    f.forget.complete next.forget e.forget = (f.complete next e).forget := by
  cases f <;> rfl

/-- Beginning an operation commutes with forgetting the lines. -/
theorem Frame.ofOperator_forget (op : Operator) (c : Cell) (e : Expr) :
    Frame.ofOperator op c.forget e.forget = (Frame.ofOperator op c e).forget := by
  cases op <;> rfl

/-- What the token after an operand leads to depends on its kind alone. -/
theorem settle_forget (next : Token) (open_ : Bool) (e : Expr) (fs : List Frame) :
    settle next.forget open_ e.forget (fs.map .forget) = (settle next open_ e fs).forget := by
  induction fs generalizing open_ e with
  | nil =>
    have hnext : continuing? Precedence.assignment.rank next.forget
        = continuing? Precedence.assignment.rank next := rfl
    simp only [List.map_nil, settle, hnext]
    split <;> rfl
  | cons f fs ih =>
    have hnext : continuing? f.forget.floor next.forget = continuing? f.floor next := by
      rw [f.floor_forget]
      rfl
    cases hcont : if open_ then continuing? f.floor next else none with
    | some op =>
      simp only [List.map_cons, settle, hnext, hcont]
      rfl
    | none =>
      by_cases hclose : (∃ paren, f = .group paren) ∧ next.kind = .rightParen
      · obtain ⟨⟨paren, rfl⟩, hkind⟩ := hclose
        rw [settle_close hkind]
        exact settle_close hkind
      · have hopen : ∀ paren, f.forget = .group paren → next.kind ≠ .rightParen := by
          intro paren hf hkind
          cases f with
          | group c => exact hclose ⟨⟨c, rfl⟩, hkind⟩
          | _ => cases hf
        rw [settle_complete hcont fun paren hf hkind => hclose ⟨⟨paren, hf⟩, hkind⟩, ← ih,
          ← Frame.complete_forget, List.map_cons]
        exact settle_complete (hnext ▸ hcont) hopen

/-- Completing all open constructs commutes with forgetting the lines. -/
theorem finishAll_forget (finish : Token) (e : Expr) (fs : List Frame) :
    finishAll finish.forget e.forget (fs.map .forget) = (finishAll finish e fs).forget := by
  induction fs generalizing e with
  | nil => rfl
  | cons f fs ih =>
    rw [List.map_cons, finishAll, List.foldl_cons, Frame.complete_forget]
    exact ih (f.complete finish e)

/-- Reading an expression from any point commutes with forgetting the lines. -/
theorem parseFrom_forget (finish : Token) (cs : List Cell) (mode : Mode) (fs : List Frame) :
    parseFrom finish.forget (cs.map .forget) mode.forget (fs.map .forget)
      = ((parseFrom finish cs mode fs).1.forget, (parseFrom finish cs mode fs).2.map .forget) := by
  induction cs generalizing mode fs with
  | nil =>
    cases mode with
    | operand => exact congrArg (·, []) (finishAll_forget finish (.missing ⟨finish, []⟩) fs)
    | after open_ e => exact congrArg (·, []) (finishAll_forget finish e fs)
  | cons c cs ih =>
    cases mode with
    | operand =>
      have hstart : start c.forget.token = start c.token := rfl
      simp only [List.map_cons, Mode.forget, parseFrom, hstart]
      split
      · rename_i v _
        exact ih (.after true (.literal c v)) fs
      · exact ih .operand (.group c :: fs)
      · rename_i op _
        exact ih .operand (.unary op c :: fs)
      · exact ih (.after false (.missing c)) fs
    | after open_ e =>
      have hsettle : settle c.forget.token open_ e.forget (fs.map .forget)
          = (settle c.token open_ e fs).forget := settle_forget c.token open_ e fs
      simp only [List.map_cons, Mode.forget, parseFrom, hsettle]
      cases settle c.token open_ e fs with
      | shift op e fs =>
        simp only [Settled.forget, Frame.ofOperator_forget]
        exact ih .operand (.ofOperator op c e :: fs)
      | close paren e fs => exact ih (.after true (.group paren e (.closed c))) fs
      | done e => rfl

/-- Reading an expression commutes with forgetting the lines. -/
theorem parse_forget (finish : Token) (cs : List Cell) :
    parse finish.forget (cs.map .forget)
      = ((parse finish cs).1.forget, (parse finish cs).2.map .forget) :=
  parseFrom_forget finish cs .operand []

/-- The last token of an expression is the same, up to its line. -/
theorem last_forget (e : Expr) : e.forget.last = e.last.forget := by
  induction e with
  | literal c v => rfl
  | missing c => rfl
  | group c e closing ih =>
    cases closing with
    | closed paren => rfl
    | unclosed before => exact ih
  | unary op c e ih => exact ih
  | binary op c l r ihl ihr => exact ihr
  | logic op c l r ihl ihr => exact ihr

/-- The literals of an expression do not depend on lines. -/
theorem literalsThen_forget (e : Expr) (after : List Value) :
    e.forget.literalsThen after = e.literalsThen after := by
  induction e generalizing after with
  | literal c v => rfl
  | missing c => rfl
  | group c e closing ih => exact ih after
  | unary op c e ih => exact ih after
  | binary op c l r ihl ihr | logic op c l r ihl ihr => simp only [forget, literalsThen, ihl, ihr]

/-- What is found in some source, with the lines forgotten. -/
def Finding.forget (k : Finding) : Finding :=
  ⟨k.complaint?.map .forget, k.size⟩

/-- Putting a complaint in front of a finding commutes with forgetting the lines. -/
theorem Finding.after_forget (k : Finding) (d? : Option Diagnostic) :
    k.forget.after (d?.map .forget) = (k.after d?).forget := by
  cases d? <;> rfl

/-- The complaint about the end of a group commutes with forgetting the lines. -/
theorem closingComplaint?_forget (closing : Closing) :
    closingComplaint? closing.forget = (closingComplaint? closing).map .forget := by
  cases closing with
  | closed paren => exact paren.complaint?_forget
  | unclosed before => rfl

/-- The complaint about an operand that is too long commutes with forgetting the lines. -/
theorem leapComplaint?_forget (e : Expr) (n : Nat) :
    leapComplaint? e.forget n = (leapComplaint? e n).map .forget := by
  unfold leapComplaint?
  split
  · rw [last_forget]
    rfl
  · rfl

/-- The complaint about a literal without a slot commutes with forgetting the lines. -/
theorem literalComplaint?_forget (pool : Pool) (c : Cell) (v : Value) :
    literalComplaint? pool c.forget v = (literalComplaint? pool c v).map .forget := by
  unfold literalComplaint?
  split <;> rfl

/-- Complaints commute with forgetting the lines. -/
theorem findThen_forget (pool : Pool) (e : Expr) (k : Finding) :
    e.forget.findThen pool k.forget = (e.findThen pool k).forget := by
  induction e generalizing k with
  | literal c v =>
    simp only [forget, findThen, c.complaint?_forget, literalComplaint?_forget, Finding.forget,
      Diagnostic.map_forget_orElse]
  | missing c =>
    simp only [forget, findThen, c.complaint?_forget, Finding.forget, Diagnostic.map_forget_orElse]
    rfl
  | group c e closing ih =>
    simp only [forget, findThen, c.complaint?_forget, closingComplaint?_forget,
      Finding.after_forget, ih]
  | unary op c e ih =>
    have hafter := ih ⟨k.complaint?, 1 + k.size⟩
    simp only [forget, findThen, c.complaint?_forget, ← Finding.after_forget, ← hafter]
    rfl
  | binary op c l r ihl ihr =>
    have hright := ihr ⟨k.complaint?, op.opcodes.length + k.size⟩
    simp only [forget, findThen, c.complaint?_forget, ← ihl, ← Finding.after_forget, ← hright]
    rfl
  | logic op c l r ihl ihr =>
    have hright : r.forget.findThen pool {} = (r.findThen pool {}).forget := ihr {}
    simp only [forget, findThen, c.complaint?_forget, hright, ← ihl]
    simp only [Finding.forget, leapComplaint?_forget, Diagnostic.map_forget_orElse]

/-- The size of an expression's code does not depend on lines. -/
theorem sizeThen_forget (e : Expr) (after : Nat) : e.forget.sizeThen after = e.sizeThen after := by
  induction e generalizing after with
  | literal c v => rfl
  | missing c => rfl
  | group c e closing ih => exact ih after
  | unary op c e ih => exact ih (1 + after)
  | binary op c l r ihl ihr | logic op c l r ihl ihr => simp only [forget, sizeThen, ihl, ihr]

/-- The instructions of an expression do not depend on lines. -/
theorem instrs_codeThen_forget (pool : Pool) (e : Expr) {k k' : Code} (h : k'.instrs = k.instrs) :
    (e.forget.codeThen pool k').instrs = (e.codeThen pool k).instrs := by
  induction e generalizing k k' with
  | literal c v => simp only [forget, codeThen, Code.instrs_prepend, h]
  | missing c => exact h
  | group c e closing ih => exact ih h
  | unary op c e ih => exact ih (by simp only [Code.instrs_prepend, h])
  | binary op c l r ihl ihr =>
    refine ihl (ihr ?_)
    simp only [Code.instrs_prepend, h]
  | logic op c l r ihl ihr =>
    have hsize : r.forget.size = r.size := r.sizeThen_forget 0
    rw [forget, codeThen_logic, codeThen_logic]
    refine ihl ?_
    simp only [Code.instrs_prepend, hsize, ihr h]

end Expr

/-! ## Statements -/

/-- How a statement ends, with the lines forgotten. -/
def Ending.forget : Ending → Ending
  | semicolon c => .semicolon c.forget
  | atEnd => .atEnd
  | unended before => .unended before.forget

namespace Statement

/-- A statement, with the lines forgotten. -/
def forget (s : Statement) : Statement :=
  ⟨s.print?.map .forget, s.expr.forget, s.ending.forget⟩

/-- Reading the end of a statement commutes with forgetting the lines. -/
theorem readEnding_forget (finish : Token) (print : Bool) (cs : List Cell) :
    readEnding finish.forget print (cs.map .forget)
      = ((readEnding finish print cs).1.forget, (readEnding finish print cs).2.map .forget) := by
  cases cs with
  | nil => cases print <;> rfl
  | cons c cs =>
    by_cases hsemi : c.token.kind = .semicolon
    · have hsemi' : c.forget.token.kind = .semicolon := hsemi
      simp [readEnding, semicolon?, hsemi, hsemi', Ending.forget]
    · have hsemi' : c.forget.token.kind ≠ .semicolon := hsemi
      simp [readEnding, semicolon?, hsemi, hsemi', Ending.forget, upcoming]
      rfl

/-- Reading a statement commutes with forgetting the lines. -/
theorem parse_forget (finish : Token) (c : Cell) (cs : List Cell) :
    parse finish.forget c.forget (cs.map .forget)
      = ((parse finish c cs).1.forget, (parse finish c cs).2.map .forget) := by
  by_cases hprint : c.token.kind = .kwPrint
  · have hprint' : c.forget.token.kind = .kwPrint := hprint
    simp only [parse, hprint, hprint', if_true, Expr.parse_forget, readEnding_forget]
    rfl
  · have hprint' : c.forget.token.kind ≠ .kwPrint := hprint
    have hread := Expr.parse_forget finish (c :: cs)
    rw [List.map_cons] at hread
    simp only [parse, hprint, hprint', if_false, hread, readEnding_forget]
    rfl

/-- The last token of a statement is the same, up to its line. -/
theorem last_forget (s : Statement) : s.forget.last = s.last.forget := by
  obtain ⟨print?, e, ending⟩ := s
  cases ending with
  | semicolon c => rfl
  | atEnd => exact e.last_forget
  | unended before => exact e.last_forget

/-- The complaint about the end of a statement commutes with forgetting the lines. -/
theorem endComplaint?_forget (s : Statement) :
    s.forget.endComplaint? = s.endComplaint?.map .forget := by
  obtain ⟨print?, e, ending⟩ := s
  cases ending with
  | semicolon c => exact c.complaint?_forget
  | atEnd => rfl
  | unended before => cases print? <;> rfl

/-- The complaint about a statement commutes with forgetting the lines. -/
theorem complaint?_forget (pool : Pool) (s : Statement) :
    s.forget.complaint? pool = (s.complaint? pool).map .forget := by
  have hfound := s.expr.findThen_forget pool ⟨s.endComplaint?, 0⟩
  have hprint : s.forget.print?.bind Cell.complaint?
      = (s.print?.bind Cell.complaint?).map .forget := by
    obtain ⟨print?, e, ending⟩ := s
    cases print? with
    | none => rfl
    | some c => exact c.complaint?_forget
  rw [complaint?, complaint?, hprint, endComplaint?_forget, Diagnostic.map_forget_orElse]
  exact congrArg (fun k => _ <|> Expr.Finding.complaint? k) hfound

end Statement

/-! ## Programs -/

/-- The tokens of a source, with the lines forgotten. -/
def Feed.forget (f : Feed) : Feed :=
  ⟨f.leading.map .forget, f.cells.map .forget, f.finish.forget⟩

/-- Grouping strays with the tokens before them commutes with forgetting the lines. -/
theorem Feed.foldr_prepend_forget (ts : List Token) :
    (ts.map Token.forget).foldr prepend ([], [])
      = ((ts.foldr prepend ([], [])).1.map .forget, (ts.foldr prepend ([], [])).2.map .forget) := by
  induction ts with
  | nil => rfl
  | cons t ts ih =>
    rw [List.map_cons, List.foldr_cons, List.foldr_cons, ih]
    by_cases hstray : t.kind = .stray
    · have hstray' : t.forget.kind = .stray := hstray
      simp only [prepend, hstray, hstray', if_true, List.map_cons]
    · have hstray' : t.forget.kind ≠ .stray := hstray
      simp only [prepend, hstray, hstray', if_false, List.map_cons, List.map_nil]
      rfl

/-- Scans with the same kinds and lexemes give the same tokens to read, up to their lines. -/
theorem Feed.ofScanned_forget {s s' : Token.Scanned}
    (h : s.tokens.map Token.forget = s'.tokens.map Token.forget) :
    (ofScanned s).forget = (ofScanned s').forget := by
  have hgrouped := foldr_prepend_forget s.tokens
  rw [h, foldr_prepend_forget] at hgrouped
  obtain ⟨hleading, hcells⟩ := Prod.mk.inj hgrouped
  simp only [forget, ofScanned, hleading, hcells]
  rfl

/-- A use, with its line forgotten. -/
def Use.forget : Use → Use
  | print _ => .print 0
  | drop _ => .drop 0
  | result => .result
  | nothing => .nothing

/-- The instructions for the value of a statement do not depend on lines. -/
theorem Use.instrs_codeThen_forget (use : Use) {k k' : Code} (h : k'.instrs = k.instrs) :
    (use.forget.codeThen k').instrs = (use.codeThen k).instrs := by
  cases use with
  | print line | drop line => simp only [forget, codeThen, Code.instrs_prepend, h]
  | result | nothing => exact h

/-- An action, with the lines forgotten. -/
def Action.forget (a : Action) : Action :=
  ⟨a.expr.forget, a.use.forget⟩

namespace Program

/-- Progress, with the lines forgotten. -/
def Progress.forget (p : Progress) : Progress :=
  ⟨p.actions.map .forget, p.pool, p.errors.map .forget, p.quiet⟩

/-- Recording a complaint commutes with forgetting the lines. -/
theorem Progress.complain_forget (p : Progress) (d? : Option Diagnostic) :
    p.forget.complain (d?.map .forget) = (p.complain d?).forget := by
  cases d? with
  | none => rfl
  | some d =>
    obtain ⟨actions, pool, errors, quiet⟩ := p
    cases quiet <;> rfl

/-- What becomes of the value of a statement is the same, up to its line. -/
theorem useOf_forget (s : Statement) (quiet : Bool) (rest : List Cell) :
    useOf s.forget quiet (rest.map .forget) = (useOf s quiet rest).forget := by
  have hprint : s.forget.print?.isSome = s.print?.isSome := Option.isSome_map
  unfold useOf
  rw [hprint, s.last_forget, List.isEmpty_map]
  split
  · rfl
  · split
    · rfl
    · split <;> rfl

/-- Taking a statement commutes with forgetting the lines. -/
theorem Progress.take_forget (p : Progress) (s : Statement) (rest : List Cell) :
    p.forget.take s.forget (rest.map .forget) = (p.take s rest).forget := by
  have hliterals : s.forget.expr.literals = s.expr.literals := s.expr.literalsThen_forget []
  have hcomplain (pool : Pool) : { p.forget with pool := pool }.complain (s.forget.complaint? pool)
      = ({ p with pool := pool }.complain (s.complaint? pool)).forget := by
    rw [Statement.complaint?_forget]
    exact complain_forget { p with pool := pool } (s.complaint? pool)
  have hpool : p.forget.pool = p.pool := rfl
  simp only [take, hliterals, hpool, hcomplain]
  rw [forget, useOf_forget]
  rfl

/-- Recovery commutes with forgetting the lines: it looks at kinds alone. -/
theorem recover_forget (afterSemicolon : Bool) (cs : List Cell) (found : Option Diagnostic) :
    recover afterSemicolon (cs.map .forget) (found.map .forget)
      = ((recover afterSemicolon cs found).1.map .forget,
          (recover afterSemicolon cs found).2.map .forget) := by
  induction cs generalizing afterSemicolon found with
  | nil => rfl
  | cons c cs ih =>
    have hkind : c.forget.token.kind = c.token.kind := rfl
    rw [List.map_cons, recover, recover, hkind, c.complaint?_forget,
      ← Diagnostic.map_forget_orElse, ih]
    split <;> rfl

/-- Going on after a statement commutes with forgetting the lines. -/
theorem resume_forget (p : Progress) (s : Statement) (rest : List Cell) :
    resume p.forget s.forget (rest.map .forget)
      = ((resume p s rest).1.forget, (resume p s rest).2.map .forget) := by
  have hquiet : p.forget.quiet = p.quiet := rfl
  have hrecover := recover_forget (s.last.kind = .semicolon) rest none
  have hkind : s.forget.last.kind = s.last.kind := by rw [s.last_forget]; rfl
  rw [Option.map_none] at hrecover
  simp only [resume, hquiet, hkind, hrecover]
  split
  · rw [← Progress.complain_forget]
    rfl
  · rfl

/-- Reading statements commutes with forgetting the lines. -/
theorem readFrom_forget (finish : Token) (p : Progress) (cs : List Cell) :
    readFrom finish.forget p.forget (cs.map .forget) = (readFrom finish p cs).forget := by
  fun_induction readFrom finish p cs with
  | case1 p => rw [List.map_nil, readFrom]
  | case2 p c cs s next ih =>
    rw [List.map_cons, readFrom]
    simp only [Statement.parse_forget, Progress.take_forget, resume_forget]
    exact ih

/-- A program, with the lines forgotten. -/
def forget (p : Program) : Program :=
  ⟨p.actions.map .forget, p.pool, p.errors.map .forget, 0⟩

/-- Reading a program commutes with forgetting the lines. -/
theorem ofFeed_forget (f : Feed) : ofFeed f.forget = (ofFeed f).forget := by
  have hbegun : Progress.complain {} (f.forget.leading.head?.map (⟨.stray, ·⟩))
      = (Progress.complain {} (f.leading.head?.map (⟨.stray, ·⟩))).forget := by
    have hleading : f.forget.leading.head?.map (Diagnostic.mk .stray)
        = (f.leading.head?.map (Diagnostic.mk .stray)).map .forget := by
      simp only [Feed.forget, List.head?_map, Option.map_map]
      rfl
    exact hleading ▸ Progress.complain_forget {} (f.leading.head?.map (⟨.stray, ·⟩))
  have hread : readFrom f.forget.finish
        (Progress.complain {} (f.forget.leading.head?.map (⟨.stray, ·⟩))) f.forget.cells
      = (readFrom f.finish (Progress.complain {} (f.leading.head?.map (⟨.stray, ·⟩)))
          f.cells).forget := by
    rw [hbegun]
    exact readFrom_forget ..
  simp only [ofFeed, hread]
  simp only [Progress.forget, forget, List.map_reverse]
  rfl

/-- Whether a program leaves a result does not depend on lines. -/
theorem hasResult_forget (p : Program) : p.forget.hasResult = p.hasResult := by
  have hlast : p.forget.actions.getLast?.map Action.use
      = (p.actions.getLast?.map Action.use).map .forget := by
    simp only [forget, List.getLast?_map, Option.map_map]
    rfl
  rw [hasResult, hasResult, hlast]
  cases p.actions.getLast?.map Action.use with
  | none => rfl
  | some use => cases use <;> rfl

/-- The instructions of a program do not depend on lines. -/
theorem instrs_code_forget (p : Program) : p.forget.code.instrs = p.code.instrs := by
  have hending : p.forget.ending.instrs = p.ending.instrs := by
    simp only [ending, hasResult_forget, Code.instrs_prepend]
  have hpool : p.forget.pool = p.pool := rfl
  have hactions : p.forget.actions = p.actions.map .forget := rfl
  rw [code, code, hpool, hactions]
  generalize p.forget.ending = k' at hending
  generalize p.ending = k at hending
  induction p.actions with
  | nil => exact hending
  | cons a actions ih =>
    exact a.expr.instrs_codeThen_forget p.pool (a.use.instrs_codeThen_forget ih)

end Program

/-! ## Compilation -/

/-- Two results of compiling agree in all but lines: two chunks have the same code and constants,
and two rejections give the same reasons in the same order. -/
def SameButLines : Except (List Diagnostic) Chunk → Except (List Diagnostic) Chunk → Prop
  | .ok c, .ok c' => c.code = c'.code ∧ c.consts = c'.consts
  | .error ds, .error ds' => ds.map Diagnostic.text = ds'.map Diagnostic.text
  | _, _ => False

/-- Programs that are the same up to lines compile to results that are. -/
theorem Compilation.sameButLines_of_forget {p q : Program} (h : p.forget = q.forget) :
    SameButLines (ofProgram p).result (ofProgram q).result := by
  have hpool : p.pool = q.pool := (Program.mk.inj h).2.1
  have herrors : p.errors.map Diagnostic.forget = q.errors.map Diagnostic.forget :=
    (Program.mk.inj h).2.2.1
  have hcode : p.code.bytes = q.code.bytes := by
    rw [Code.bytes_eq, Code.bytes_eq, ← p.instrs_code_forget, h, q.instrs_code_forget]
  have hempty : p.errors.isEmpty = q.errors.isEmpty := by
    rw [← List.isEmpty_map, herrors, List.isEmpty_map]
  have htexts : p.errors.map Diagnostic.text = q.errors.map Diagnostic.text := by
    have hmapped := congrArg (List.map Diagnostic.text) herrors
    simpa only [List.map_map, Function.comp_def, Diagnostic.text_forget] using hmapped
  by_cases hnone : q.errors.isEmpty = true
  · have hp : (ofProgram p).result = .ok (.ofCode p.code p.pool) := if_pos (hempty.trans hnone)
    have hq : (ofProgram q).result = .ok (.ofCode q.code q.pool) := if_pos hnone
    rw [hp, hq]
    exact ⟨hcode, hpool⟩
  · have hp : (ofProgram p).result = .error p.errors := if_neg (hempty ▸ hnone)
    have hq : (ofProgram q).result = .error q.errors := if_neg hnone
    rw [hp, hq]
    exact htexts

/-- Sources whose tokens have the same kinds and lexemes compile alike. -/
theorem sameButLines_compile {source source' : Bytes}
    (h : (Token.scan (Utf8.decode source)).tokens.map Token.forget
      = (Token.scan (Utf8.decode source')).tokens.map Token.forget) :
    SameButLines (compile source) (compile source') := by
  refine Compilation.sameButLines_of_forget ?_
  rw [Program.ofSource, Program.ofSource, ← Program.ofFeed_forget, ← Program.ofFeed_forget,
    Feed.ofScanned_forget h]

end Lox
