import Lox.Proofs.Acceptance

/-!
# What diagnostics are about

Whatever is complained about is a token that was read, or the end of the source. `Expr.From P` says
of an expression that all it keeps has the property `P`: its tokens, the strays after them, and the
tokens before which a group was left open. It also says that literals have the values of their
tokens. Reading gives such expressions from such tokens (`parseFrom_from`), complaints about them
are about such tokens (`findThen_from`), and so are all the errors that reading statements adds
(`errors_readFrom_from`).
-/

namespace Lox

variable {P : Token → Prop}

/-- A token with the property, as have the strays after it. -/
structure Cell.From (P : Token → Prop) (c : Cell) : Prop where
  token : P c.token
  strays : ∀ t ∈ c.strays, P t

/-- A group ends at, or before, a token with the property. -/
def Closing.From (P : Token → Prop) : Closing → Prop
  | .closed c => c.From P
  | .unclosed t => P t

/-- A complaint, if there is one, is about a token with the property. -/
def Blames (P : Token → Prop) (d? : Option Diagnostic) : Prop :=
  ∀ d ∈ d?, P d.token

/-- The first of two complaints is about a token with the property if both would be. -/
theorem Blames.orElse {d? e? : Option Diagnostic} (hd : Blames P d?) (he : Blames P e?) :
    Blames P (d? <|> e?) := by
  cases d? with
  | none => exact he
  | some d => exact hd

/-- Where there is no complaint, there is nothing to ask of it. -/
theorem blames_none : Blames P none := by
  intro d hd
  cases hd

/-- A complaint is about a token with the property if its own token has it. -/
theorem blames_some {d : Diagnostic} (h : P d.token) : Blames P (some d) := by
  intro e he
  cases he
  exact h

/-- A complaint about a token, or about a stray after it, is about one of them. -/
theorem Cell.From.blames {c : Cell} (h : c.From P) : Blames P c.complaint? := by
  intro d hd
  obtain ⟨t, ht, rfl⟩ := Option.map_eq_some_iff.mp hd
  exact h.strays t (List.mem_of_head? ht)

namespace Expr

/-- An expression that was read from tokens with the property. -/
def From (P : Token → Prop) : Expr → Prop
  | literal c v => c.From P ∧ start c.token = .literal v
  | missing c => c.From P
  | group c e closing => c.From P ∧ e.From P ∧ closing.From P
  | unary _ c e => c.From P ∧ e.From P
  | binary _ c l r | logic _ c l r => c.From P ∧ l.From P ∧ r.From P

/-- A construct whose first part was read from tokens with the property. -/
def Frame.From (P : Token → Prop) : Frame → Prop
  | group c => c.From P
  | unary _ c => c.From P
  | binary _ c l | logic _ c l => c.From P ∧ l.From P

/-- What has been read of an operand. -/
def Mode.From (P : Token → Prop) : Mode → Prop
  | operand => True
  | after _ e => e.From P

/-- The last token of an expression is one it was read from. -/
theorem From.last {e : Expr} (h : e.From P) : P e.last := by
  induction e with
  | literal c v => exact h.1.token
  | missing c => exact h.token
  | group c e closing ih =>
    cases closing with
    | closed d => exact h.2.2.token
    | unclosed t => exact ih h.2.1
  | unary op c e ih => exact ih h.2
  | binary op c l r _ ihr => exact ihr h.2.2
  | logic op c l r _ ihr => exact ihr h.2.2

/-! ## Reading -/

section Reading

variable {next finish : Token} {e e' : Expr} {f : Frame} {fs fs' : List Frame}

/-- A construct that is completed keeps only what its parts keep, and the token it ends before. -/
theorem Frame.From.complete (hf : f.From P) (hnext : P next) (he : e.From P) :
    (f.complete next e).From P := by
  cases f with
  | group c => exact ⟨hf, he, hnext⟩
  | unary op c => exact ⟨hf, he⟩
  | binary op c l => exact ⟨hf.1, hf.2, he⟩
  | logic op c l => exact ⟨hf.1, hf.2, he⟩

/-- Whatever a token leads to keeps only what was there. -/
def Settled.From (P : Token → Prop) : Settled → Prop
  | shift _ e fs => e.From P ∧ ∀ f ∈ fs, f.From P
  | close paren e fs => paren.From P ∧ e.From P ∧ ∀ f ∈ fs, f.From P
  | done e => e.From P

/-- Whatever a token leads to keeps only what was there, and the token itself. -/
theorem settle_from (hnext : P next) (open_ : Bool) (he : e.From P) (hfs : ∀ f ∈ fs, f.From P) :
    (settle next open_ e fs).From P := by
  revert he hfs
  refine settle_induction (motive := fun e fs s => e.From P → (∀ f ∈ fs, f.From P) → s.From P)
    ?_ ?_ ?_ ?_ open_ e fs
  · intro op e fs _ he hfs
    exact ⟨he, hfs⟩
  · intro paren e fs _ he hfs
    obtain ⟨hparen, hrest⟩ := List.forall_mem_cons.mp hfs
    exact ⟨hparen, he, hrest⟩
  · intro e he _
    exact he
  · intro f e fs s ih he hfs
    obtain ⟨hf, hrest⟩ := List.forall_mem_cons.mp hfs
    exact ih (hf.complete hnext he) hrest

/-- Completing all open constructs keeps only what was there, and the end. -/
theorem finishAll_from (hfinish : P finish) (he : e.From P) (hfs : ∀ f ∈ fs, f.From P) :
    (finishAll finish e fs).From P := by
  unfold finishAll
  induction fs generalizing e with
  | nil => exact he
  | cons f fs ih =>
    obtain ⟨hf, hrest⟩ := List.forall_mem_cons.mp hfs
    exact ih (hf.complete hfinish he) hrest

/-- One step of reading keeps only what was there, and the token that was read. -/
theorem Moves.keeps {c : Cell} {mode mode' : Mode} (h : Moves c mode fs mode' fs') (hc : c.From P)
    (hmode : mode.From P) (hfs : ∀ f ∈ fs, f.From P) : mode'.From P ∧ ∀ f ∈ fs', f.From P := by
  cases h with
  | literal hstart => exact ⟨⟨hc, hstart⟩, hfs⟩
  | group _ => exact ⟨trivial, List.forall_mem_cons.mpr ⟨hc, hfs⟩⟩
  | unary _ => exact ⟨trivial, List.forall_mem_cons.mpr ⟨hc, hfs⟩⟩
  | missing _ => exact ⟨hc, hfs⟩
  | @shift open_ e e' fs fs' op hshift =>
    have hsettled := settle_from hc.token open_ hmode hfs
    rw [hshift] at hsettled
    have hop : (Frame.ofOperator op c e').From P := by cases op <;> exact ⟨hc, hsettled.1⟩
    exact ⟨trivial, List.forall_mem_cons.mpr ⟨hop, hsettled.2⟩⟩
  | @close open_ e e' fs fs' paren hclose =>
    have hsettled := settle_from hc.token open_ hmode hfs
    rw [hclose] at hsettled
    exact ⟨⟨hsettled.1, hsettled.2.1, hc⟩, hsettled.2.2⟩

/-- An expression is read from the tokens that are there, and leaves the last of them. -/
theorem parseFrom_from (hfinish : P finish) {cells : List Cell} (hcells : ∀ c ∈ cells, c.From P)
    (mode : Mode) (hmode : mode.From P) (hfs : ∀ f ∈ fs, f.From P) :
    (parseFrom finish cells mode fs).1.From P ∧ (parseFrom finish cells mode fs).2 <:+ cells := by
  induction cells generalizing mode fs with
  | nil =>
    cases mode with
    | operand =>
      have hmissing : (missing ⟨finish, []⟩).From P := ⟨hfinish, List.forall_mem_nil _⟩
      exact ⟨finishAll_from hfinish hmissing hfs, List.suffix_refl []⟩
    | after open_ e => exact ⟨finishAll_from hfinish hmode hfs, List.suffix_refl []⟩
  | cons c cs ih =>
    obtain ⟨hc, hcs⟩ := List.forall_mem_cons.mp hcells
    rcases parseFrom_cons finish c cs mode fs with
      ⟨mode', fs', hmoves, heq⟩ | ⟨open_, e, e', rfl, hdone, heq⟩
    · obtain ⟨hmode', hfs'⟩ := hmoves.keeps hc hmode hfs
      obtain ⟨hfrom, hsuffix⟩ := ih hcs mode' hmode' hfs'
      rw [heq]
      exact ⟨hfrom, hsuffix.trans (List.suffix_cons c cs)⟩
    · have hsettled := settle_from hc.token open_ hmode hfs
      rw [hdone] at hsettled
      rw [heq]
      exact ⟨hsettled, List.suffix_refl _⟩

end Reading

/-! ## Complaints -/

/-- The literals of such an expression have the values of their tokens. -/
theorem From.regular {e : Expr} (h : e.From P) : Pool.Regular e.literals := by
  induction e with
  | literal c v =>
    intro w hw
    obtain rfl := List.mem_singleton.mp hw
    exact (Grammar.start_eq_literal_iff.mp h.2).regular
  | missing c => exact List.forall_mem_nil _
  | group c e closing ih => exact ih h.2.1
  | unary op c e ih => exact ih h.2
  | binary op c l r ihl ihr | logic op c l r ihl ihr =>
    rw [literals, literalsThen, literalsThen_eq]
    exact List.forall_mem_append.mpr ⟨ihl h.2.1, ihr h.2.2⟩

/-- What is complained about in an expression is what it was read from. -/
theorem findThen_from {pool : Pool} {e : Expr} {k : Finding} (h : e.From P)
    (hk : Blames P k.complaint?) : Blames P (e.findThen pool k).complaint? := by
  induction e generalizing k with
  | literal c v =>
    refine h.1.blames.orElse (Blames.orElse ?_ hk)
    unfold literalComplaint?
    split
    · exact blames_some h.1.token
    · exact blames_none
  | missing c => exact h.blames.orElse (blames_some h.token)
  | group c e closing ih =>
    have hclosing : Blames P (closingComplaint? closing) := by
      cases closing with
      | closed d => exact h.2.2.blames
      | unclosed t => exact blames_some h.2.2
    exact h.1.blames.orElse (ih h.2.1 (hclosing.orElse hk))
  | unary op c e ih => exact h.1.blames.orElse (ih h.2 hk)
  | binary op c l r ihl ihr => exact ihl h.2.1 (h.1.blames.orElse (ihr h.2.2 hk))
  | logic op c l r ihl ihr =>
    refine ihl h.2.1 (h.1.blames.orElse ((ihr h.2.2 blames_none).orElse (Blames.orElse ?_ hk)))
    unfold leapComplaint?
    split
    · exact blames_some h.2.2.last
    · exact blames_none

end Expr

/-! ## Statements -/

namespace Statement

/-- How a statement ends, at or before a token with the property. -/
def EndsFrom (P : Token → Prop) : Ending → Prop
  | .semicolon c => c.From P
  | .atEnd => True
  | .unended t => P t

/-- A statement that was read from tokens with the property. -/
structure From (P : Token → Prop) (s : Statement) : Prop where
  print? : ∀ c ∈ s.print?, c.From P
  expr : s.expr.From P
  ending : EndsFrom P s.ending

variable {finish : Token} {c : Cell} {cs cells : List Cell}

/-- A statement ends at or before a token that is there, and leaves the last of the tokens. -/
theorem readEnding_from (hfinish : P finish) (print : Bool) (hcells : ∀ c ∈ cells, c.From P) :
    EndsFrom P (readEnding finish print cells).1 ∧ (readEnding finish print cells).2 <:+ cells := by
  cases cells with
  | nil =>
    cases print
    · exact ⟨trivial, List.suffix_refl []⟩
    · exact ⟨hfinish, List.suffix_refl []⟩
  | cons c cs =>
    have hc := hcells c List.mem_cons_self
    by_cases h : c.token.kind = .semicolon
    · rw [readEnding_semicolon h]
      exact ⟨hc, List.suffix_cons c cs⟩
    · rw [readEnding_of_ne h]
      exact ⟨hc.token, List.suffix_refl _⟩

/-- A statement is read from the tokens that are there, and leaves the last of them. -/
theorem parse_from (hfinish : P finish) (hcells : ∀ d ∈ c :: cs, d.From P) :
    (parse finish c cs).1.From P ∧ (parse finish c cs).2 <:+ c :: cs := by
  obtain ⟨hc, hcs⟩ := List.forall_mem_cons.mp hcells
  -- the expression may begin with the first token or after it
  have hread : ∀ (print : Bool) {cells : List Cell}, cells <:+ c :: cs →
      (Expr.parse finish cells).1.From P ∧
        EndsFrom P (readEnding finish print (Expr.parse finish cells).2).1 ∧
        (readEnding finish print (Expr.parse finish cells).2).2 <:+ c :: cs := by
    intro print cells hsuffix
    have hfrom : ∀ d ∈ cells, d.From P := fun d hd => hcells d (hsuffix.subset hd)
    obtain ⟨hexpr, hrest⟩ := Expr.parseFrom_from hfinish hfrom .operand trivial
      (List.forall_mem_nil _)
    obtain ⟨hending, hafter⟩ :=
      readEnding_from hfinish print fun d hd => hfrom d (hrest.subset hd)
    exact ⟨hexpr, hending, (hafter.trans hrest).trans hsuffix⟩
  by_cases h : c.token.kind = .kwPrint
  · obtain ⟨hexpr, hending, hrest⟩ := hread true (List.suffix_cons c cs)
    rw [parse_print h]
    refine ⟨⟨?_, hexpr, hending⟩, hrest⟩
    intro d hd
    cases hd
    exact hc
  · obtain ⟨hexpr, hending, hrest⟩ := hread false (List.suffix_refl _)
    rw [parse_expr h]
    refine ⟨⟨?_, hexpr, hending⟩, hrest⟩
    intro d hd
    cases hd

/-- What is complained about in a statement is what it was read from. -/
theorem From.blames {s : Statement} (h : s.From P) (pool : Pool) :
    Blames P (s.complaint? pool) := by
  have hprint : Blames P (s.print?.bind Cell.complaint?) := by
    intro d hd
    obtain ⟨c, hc, hcomplaint⟩ := Option.bind_eq_some_iff.mp hd
    exact (h.print? c hc).blames d hcomplaint
  have hending : Blames P s.endComplaint? := by
    have hends := h.ending
    unfold endComplaint?
    split
    · rename_i c hsemicolon
      rw [hsemicolon] at hends
      exact hends.blames
    · exact blames_none
    · rename_i t hunended
      rw [hunended] at hends
      exact blames_some hends
  exact hprint.orElse (Expr.findThen_from h.expr hending)

end Statement

/-! ## Programs -/

namespace Program

variable {finish : Token}

/-- A complaint adds an error about a token with the property, or nothing. -/
theorem Progress.errors_complain_from (p : Progress) {d? : Option Diagnostic} (h : Blames P d?) :
    ∃ ds, (p.complain d?).errors = ds ++ p.errors ∧ ∀ d ∈ ds, P d.token := by
  unfold complain
  split
  · exact ⟨[], rfl, List.forall_mem_nil _⟩
  · rename_i d
    split
    · exact ⟨[], rfl, List.forall_mem_nil _⟩
    · exact ⟨[d], rfl, fun e he => List.mem_singleton.mp he ▸ h d rfl⟩

/-- Recovery meets only the tokens that are there, and leaves the last of them. -/
theorem recover_from {cells : List Cell} (hcells : ∀ c ∈ cells, c.From P) (afterSemicolon : Bool)
    {found : Option Diagnostic} (hfound : Blames P found) :
    (recover afterSemicolon cells found).1 <:+ cells ∧
      Blames P (recover afterSemicolon cells found).2 := by
  induction cells generalizing afterSemicolon found with
  | nil => exact ⟨List.suffix_refl [], hfound⟩
  | cons c cs ih =>
    obtain ⟨hc, hcs⟩ := List.forall_mem_cons.mp hcells
    rw [recover]
    split
    · exact ⟨List.suffix_refl _, hfound⟩
    · obtain ⟨hsuffix, hblames⟩ := ih hcs (c.token.kind = .semicolon) (hfound.orElse hc.blames)
      exact ⟨hsuffix.trans (List.suffix_cons c cs), hblames⟩

/-- Going on after a statement adds errors about the tokens that follow it alone, and passes over
some of them. -/
theorem resume_from (p : Progress) (s : Statement) {rest : List Cell}
    (hrest : ∀ c ∈ rest, c.From P) :
    (resume p s rest).2 <:+ rest ∧
      ∃ ds, (resume p s rest).1.errors = ds ++ p.errors ∧ ∀ d ∈ ds, P d.token := by
  unfold resume
  split
  · obtain ⟨hsuffix, hblames⟩ := recover_from hrest (s.last.kind = .semicolon) blames_none
    exact ⟨hsuffix, Progress.errors_complain_from { p with quiet := false } hblames⟩
  · exact ⟨List.suffix_refl _, [], rfl, List.forall_mem_nil _⟩

/-- All errors that reading adds are about the tokens read, or about the end. -/
theorem errors_readFrom_from (hfinish : P finish) (p : Progress) {cells : List Cell}
    (hcells : ∀ c ∈ cells, c.From P) :
    ∃ ds, (readFrom finish p cells).errors = ds ++ p.errors ∧ ∀ d ∈ ds, P d.token := by
  fun_induction readFrom finish p cells with
  | case1 p => exact ⟨[], rfl, List.forall_mem_nil _⟩
  | case2 p c cs s next ih =>
    obtain ⟨hs, hrest⟩ := Statement.parse_from hfinish hcells
    have hcells' : ∀ d ∈ s.2, d.From P := fun d hd => hcells d (hrest.subset hd)
    obtain ⟨ds, hds, hdsP⟩ := Progress.errors_complain_from
      { p with pool := p.pool.addAll s.1.expr.literals } (hs.blames _)
    obtain ⟨hnext, es, hes, hesP⟩ := resume_from (p.take s.1 s.2) s.1 hcells'
    obtain ⟨fs, hfs, hfsP⟩ := ih fun d hd => hcells' d (hnext.subset hd)
    refine ⟨fs ++ es ++ ds, ?_, ?_⟩
    · rw [hfs, hes]
      simp only [List.append_assoc]
      exact congrArg (fun errors => fs ++ (es ++ errors)) hds
    · simp only [List.forall_mem_append]
      exact ⟨⟨hfsP, hesP⟩, hdsP⟩

end Program

end Lox
