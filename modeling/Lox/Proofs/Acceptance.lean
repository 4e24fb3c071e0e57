import Lox.Proofs.Constants
import Lox.Proofs.Statements

/-!
# What is accepted

The compiler accepts a source text just when its tokens are a program of the grammar that keeps two
limits: no more than 256 of its constants differ, and no right operand of a logical operator has
more code than a jump can leap (`compile_ok_iff_accepted`).

Reading never stops at an error and never forgets one, so a text without errors is one whose
statements are all read without complaint. `readFrom_of_sentences` and `sentences_of_readFrom` are
the two directions of that for the loop over the statements.
-/

namespace Lox

open Grammar

namespace Program

/-! ## The loop over the statements -/

/-- What becomes of the value of a statement, which may be the last one. -/
def useOfSentence (isLast : Bool) : Sentence → Use
  | .print _ _ s => .print s.line
  | .expr _ s? => if isLast then .result else .drop (s?.elim 0 fun s => (s.line : Int))

/-- The statements of a program as code is made from them. -/
def actionsOf : List Sentence → List Action
  | [] => []
  | σ :: p => ⟨σ.tree.expr, useOfSentence p.isEmpty σ⟩ :: actionsOf p

/-- Each statement fits the pool as it is after that statement. -/
def Admitted (pool : Pool) : List Sentence → Prop
  | [] => True
  | σ :: p =>
    σ.tree.Fits (pool.addAll σ.tree.literals).Admits ∧ Admitted (pool.addAll σ.tree.literals) p

variable {finish : Token} {p : Progress}

/-- What becomes of the value of a statement depends only on whether another statement follows. -/
theorem useOf_statement {ts us : List Token} {σ : Sentence} {q : List Sentence}
    (h : Sentences ts (σ :: q)) (hus : Sentences us q) :
    useOf σ.statement false (us.map .plain) = useOfSentence q.isEmpty σ := by
  have hempty : (us.map Cell.plain).isEmpty = q.isEmpty := by
    rw [Bool.eq_iff_iff, List.isEmpty_iff, List.isEmpty_iff, List.map_eq_nil_iff, hus.eq_nil_iff]
  cases h with
  | print => rfl
  | expr =>
    simp only [useOf, Sentence.statement, Option.isSome_none, Bool.false_eq_true, if_false, hempty,
      useOfSentence]
    rfl
  | last =>
    rw [useOf, hempty]
    rfl

/-- A statement that fits is taken without complaint. -/
theorem take_statement {σ : Sentence} {rest : List Cell} (hquiet : p.quiet = false)
    (h : σ.tree.Fits (p.pool.addAll σ.tree.literals).Admits) :
    p.take σ.statement rest =
      { p with
        actions := ⟨σ.tree.expr, useOf σ.statement false rest⟩ :: p.actions
        pool := p.pool.addAll σ.tree.literals } := by
  have hcomplaint := Statement.complaint?_statement h
  rw [Progress.take, Statement.expr_statement, Expr.literals_expr, hcomplaint]
  simp [Progress.complain, hquiet]

/-- A derived program is read without errors. -/
theorem readFrom_of_sentences {ts : List Token} {q : List Sentence} (h : Sentences ts q)
    (hquiet : p.quiet = false) (hadmitted : Admitted p.pool q) :
    readFrom finish p (ts.map .plain) =
      { p with
        actions := (actionsOf q).reverse ++ p.actions
        pool := p.pool.addAll (literals q) } := by
  induction q generalizing ts p with
  | nil =>
    obtain rfl := h.eq_nil_iff.mpr rfl
    rw [List.map_nil, readFrom]
    rfl
  | cons σ q ih =>
    obtain ⟨c, cs, us, hcells, hparse, hus⟩ := exists_parse_of_sentences finish h
    rw [hcells, readFrom, hparse]
    dsimp only
    rw [take_statement hquiet hadmitted.1, useOf_statement h hus, resume,
      if_neg (by simp [hquiet]), ih hus]
    · simp [actionsOf, literals, Pool.addAll_append]
    · exact hquiet
    · exact hadmitted.2

/-- Complaints are only added. -/
theorem Progress.errors_complain (p : Progress) (d? : Option Diagnostic) :
    ∃ ds, (p.complain d?).errors = ds ++ p.errors := by
  unfold complain
  split
  · exact ⟨[], rfl⟩
  · rename_i d
    split
    · exact ⟨[], rfl⟩
    · exact ⟨[d], rfl⟩

/-- Taking a statement only adds errors. -/
theorem Progress.errors_take (p : Progress) (s : Statement) (rest : List Cell) :
    ∃ ds, (p.take s rest).errors = ds ++ p.errors :=
  Progress.errors_complain { p with pool := p.pool.addAll s.expr.literals } _

/-- Taking a statement adds its literals to the pool, whether or not it has errors. -/
theorem Progress.pool_take (p : Progress) (s : Statement) (rest : List Cell) :
    (p.take s rest).pool = p.pool.addAll s.expr.literals := by
  simp only [take, complain]
  split <;> rfl

/-- Going on after a statement only adds errors. -/
theorem errors_resume (p : Progress) (s : Statement) (rest : List Cell) :
    ∃ ds, (resume p s rest).1.errors = ds ++ p.errors := by
  unfold resume
  split
  · exact Progress.errors_complain { p with quiet := false } _
  · exact ⟨[], rfl⟩

/-- An error is never forgotten. -/
theorem errors_readFrom (finish : Token) (p : Progress) (cells : List Cell) :
    ∃ ds, (readFrom finish p cells).errors = ds ++ p.errors := by
  fun_induction readFrom finish p cells with
  | case1 p => exact ⟨[], rfl⟩
  | case2 p c cs s next ih =>
    obtain ⟨ds, hds⟩ := ih
    obtain ⟨es, hes⟩ := errors_resume (p.take s.1 s.2) s.1 s.2
    obtain ⟨fs, hfs⟩ := p.errors_take s.1 s.2
    exact ⟨ds ++ es ++ fs, by rw [hds, hes, hfs]; simp⟩

/-- A statement is taken without an error only if there is nothing to complain about. -/
theorem complaint?_of_take {s : Statement} {rest : List Cell} (hquiet : p.quiet = false)
    (h : (p.take s rest).errors = []) :
    s.complaint? (p.pool.addAll s.expr.literals) = none ∧ (p.take s rest).quiet = false := by
  cases hcomplaint : s.complaint? (p.pool.addAll s.expr.literals) with
  | none => exact ⟨rfl, by simp [Progress.take, hcomplaint, Progress.complain, hquiet]⟩
  | some d => simp [Progress.take, hcomplaint, Progress.complain, hquiet] at h

/-- What is read without errors is derived. -/
theorem sentences_of_readFrom {cells : List Cell} (hquiet : p.quiet = false)
    (h : (readFrom finish p cells).errors = []) :
    ∃ ts q, cells = ts.map .plain ∧ Sentences ts q ∧ Admitted p.pool q := by
  fun_induction readFrom finish p cells with
  | case1 p => exact ⟨[], [], rfl, .nil, trivial⟩
  | case2 p c cs s next ih =>
    have hnext : next.1.errors = [] := by
      obtain ⟨ds, hds⟩ := errors_readFrom finish next.1 next.2
      rw [h] at hds
      exact (List.append_eq_nil_iff.mp hds.symm).2
    have htake : (p.take s.1 s.2).errors = [] := by
      obtain ⟨ds, hds⟩ := errors_resume (p.take s.1 s.2) s.1 s.2
      exact (List.append_eq_nil_iff.mp (hds.symm.trans hnext)).2
    obtain ⟨hcomplaint, hquiet'⟩ := complaint?_of_take hquiet htake
    have hresume : next = (p.take s.1 s.2, s.2) := by
      simp only [next, resume, hquiet']
      rfl
    obtain ⟨us, q, hcells, hq, hadmitted⟩ := ih (by rw [hresume]; exact hquiet') h
    obtain ⟨σ, hσ, hfits⟩ := Statement.exists_sentence hcomplaint (Statement.ending_parse c cs)
    have hliterals : s.1.expr.literals = σ.tree.literals := by
      rw [hσ, Statement.expr_statement, Expr.literals_expr]
    rw [hresume] at hcells hadmitted
    rw [Progress.pool_take, hliterals] at hadmitted
    rw [hliterals] at hfits
    obtain ⟨ts, hts, hsentences⟩ := sentences_of_parse (Prod.ext hσ hcells) hq
    exact ⟨ts, σ :: q, hts, hsentences, hfits, hadmitted⟩

/-! ## The two limits -/

/-- The pool keeps to its limit statement by statement just when it does in the end. -/
theorem admitted_iff {vs : List Value} {q : List Sentence}
    (h : Pool.Regular (vs ++ literals q)) :
    Admitted (Pool.addAll [] vs) q ↔
      (∀ v ∈ literals q, (Pool.addAll [] (vs ++ literals q)).lacks v = false) ∧
        ∀ r ∈ guarded q, r.expr.size < Expr.maxLeap := by
  induction q generalizing vs with
  | nil => simp [Admitted, literals, guarded]
  | cons σ q ih =>
    have hsplit : vs ++ literals (σ :: q) = (vs ++ σ.tree.literals) ++ literals q := by
      simp [literals]
    rw [hsplit] at h
    have hslot : ∀ v ∈ σ.tree.literals,
        (Pool.addAll [] (vs ++ σ.tree.literals ++ literals q)).lacks v =
          (Pool.addAll [] (vs ++ σ.tree.literals)).lacks v :=
      fun v hv => Pool.lacks_addAll_append h (List.mem_append_right _ hv)
    have hliterals : literals (σ :: q) = σ.tree.literals ++ literals q := List.flatMap_cons
    have hguarded : guarded (σ :: q) = σ.tree.guarded ++ guarded q := List.flatMap_cons
    rw [Admitted, ← Pool.addAll_append, ih h, hsplit, hliterals, hguarded, List.forall_mem_append,
      List.forall_mem_append]
    constructor
    · rintro ⟨hfits, hslots, hleaps⟩
      exact ⟨⟨fun v hv => (hslot v hv).trans (hfits.slots v hv), hslots⟩, hfits.leaps, hleaps⟩
    · rintro ⟨⟨hslotsσ, hslots⟩, hleapsσ, hleaps⟩
      exact ⟨⟨fun v hv => (hslot v hv).symm.trans (hslotsσ v hv), hleapsσ⟩, hslots, hleaps⟩

/-- The literals of a derived program have the values of their tokens, so the pool tells them apart
as it should. -/
theorem regular_literals {ts : List Token} {q : List Sentence} (h : Sentences ts q) :
    Pool.Regular (literals q) := by
  intro v hv
  obtain ⟨t, -, hliteral⟩ := h.exists_literal hv
  exact hliteral.regular

/-- A derived program keeps the limits just when not too many of its constants differ, and no right
operand is too long. -/
theorem admitted_nil_iff {ts : List Token} {q : List Sentence} (h : Sentences ts q) :
    Admitted [] q ↔ Pool.AtMost Pool.capacity (literals q) ∧
      ∀ r ∈ guarded q, r.expr.size < Expr.maxLeap := by
  have hregular := regular_literals h
  rw [← Pool.lacks_iff_distinct hregular]
  change Admitted (Pool.addAll [] []) q ↔ _
  exact admitted_iff hregular

end Program

/-! ## Strays -/

namespace Feed

/-- Grouping loses no token. -/
theorem flatten_ofScanned (s : Token.Scanned) :
    (ofScanned s).leading ++ (ofScanned s).cells.flatMap (fun c => c.token :: c.strays) =
      s.tokens := by
  obtain ⟨tokens, endLine⟩ := s
  simp only [ofScanned]
  induction tokens with
  | nil => rfl
  | cons t ts ih =>
    rw [List.foldr_cons, prepend]
    split
    · simpa using ih
    · simpa using ih

/-- Strays are what is left between the tokens. -/
theorem kind_ofScanned (s : Token.Scanned) {c : Cell} (h : c ∈ (ofScanned s).cells) :
    c.token.kind ≠ .stray := by
  obtain ⟨tokens, endLine⟩ := s
  simp only [ofScanned] at h
  induction tokens with
  | nil => cases h
  | cons t ts ih =>
    rw [List.foldr_cons, prepend] at h
    split at h
    · exact ih h
    · rcases List.mem_cons.mp h with rfl | h
      · assumption
      · exact ih h

/-- Without strays each token stands alone. -/
theorem ofScanned_of_forall {s : Token.Scanned} (h : ∀ t ∈ s.tokens, t.kind ≠ .stray) :
    ofScanned s = ⟨[], s.tokens.map .plain, s.finish⟩ := by
  have hgrouped : ∀ ts : List Token, (∀ t ∈ ts, t.kind ≠ .stray) →
      ts.foldr prepend ([], []) = ([], ts.map .plain) := by
    intro ts hts
    induction ts with
    | nil => rfl
    | cons t ts ih =>
      rw [List.foldr_cons, ih fun u hu => hts u (List.mem_cons_of_mem _ hu), prepend,
        if_neg (hts t List.mem_cons_self)]
      rfl
  simp only [ofScanned, hgrouped s.tokens h]

end Feed

/-! ## Acceptance -/

namespace Program

variable {cs : List Char}

/-- A derived program within the limits is read as the grammar has it. -/
theorem ofSource_of_sentences {q : List Sentence}
    (hstray : ∀ t ∈ (Token.scan cs).tokens, t.kind ≠ .stray)
    (h : Sentences (Token.scan cs).tokens q) (hadmitted : Admitted [] q) :
    ofSource cs = ⟨actionsOf q, Pool.addAll [] (literals q), [], (Token.scan cs).endLine⟩ := by
  have hbegun : Admitted ({} : Progress).pool q := hadmitted
  rw [ofSource, Feed.ofScanned_of_forall hstray, ofFeed]
  change (fun p : Progress => (⟨p.actions.reverse, p.pool, p.errors.reverse, _⟩ : Program))
    (readFrom _ {} _) = _
  rw [readFrom_of_sentences h rfl hbegun]
  simp [Token.Scanned.finish, Token.atEnd]

/-- A source without errors is a derived program within the limits. -/
theorem sentences_of_ofSource (h : (ofSource cs).errors = []) :
    (∀ t ∈ (Token.scan cs).tokens, t.kind ≠ .stray) ∧
      ∃ q, Sentences (Token.scan cs).tokens q ∧ Admitted [] q := by
  have hflatten := Feed.flatten_ofScanned (Token.scan cs)
  have hkind := @Feed.kind_ofScanned (Token.scan cs)
  rw [ofSource] at h
  generalize Feed.ofScanned (Token.scan cs) = feed at h hflatten hkind
  obtain ⟨leading, cells, finish⟩ := feed
  have hread := List.reverse_eq_nil_iff.mp h
  cases leading with
  | cons t ts =>
    obtain ⟨ds, hds⟩ := errors_readFrom finish (Progress.complain {} (some ⟨.stray, t⟩)) cells
    exact absurd (hds.symm.trans hread) (by simp [Progress.complain])
  | nil =>
    obtain ⟨ts, q, rfl, hq, hadmitted⟩ := sentences_of_readFrom rfl hread
    have htokens : (Token.scan cs).tokens = ts := by
      rw [← hflatten]
      simp [List.flatMap_map, Cell.plain]
    rw [htokens]
    exact ⟨fun t ht => hkind (List.mem_map_of_mem ht), q, hq, hadmitted⟩

end Program

/-- The bytes of the code that a tree becomes in a program with these constants. -/
def Tree.emitted (pool : Pool) (e : Tree) : Bytes :=
  (Chunk.ofCode (e.expr.codeThen pool {}) pool).code

/-- The tokens of a source that is accepted. -/
structure Accepted (tokens : List Token) : Prop where
  /-- Every stretch of the source is a token. -/
  no_stray : ∀ t ∈ tokens, t.kind ≠ .stray
  /-- The tokens are a program, in which no more than 256 constants differ, and in which the code of
  each right operand of a logical operator has no more than 65534 bytes. -/
  derived : ∃ p, Sentences tokens p ∧ Pool.AtMost 256 (literals p) ∧
    ∀ r ∈ guarded p, (r.emitted (Pool.addAll [] (literals p))).length ≤ 65534

/-- The code of a tree is as long as its size says, whatever the pool is. -/
theorem length_emitted (pool : Pool) (e : Tree) : (e.emitted pool).length = e.expr.size :=
  Expr.length_bytes_codeThen pool e.expr Code.counted_empty

/-- A source has no errors just when its tokens are those of an accepted one. -/
theorem errors_ofSource_eq_nil_iff {cs : List Char} :
    (Program.ofSource cs).errors = [] ↔ Accepted (Token.scan cs).tokens := by
  have hleap : ∀ {p : List Sentence}, (∀ r ∈ guarded p, r.expr.size < Expr.maxLeap) ↔
      ∀ r ∈ guarded p, (r.emitted (Pool.addAll [] (literals p))).length ≤ 65534 := by
    intro p
    simp only [length_emitted, Expr.maxLeap, Nat.lt_succ_iff]
  constructor
  · intro h
    obtain ⟨hstray, q, hq, hadmitted⟩ := Program.sentences_of_ofSource h
    obtain ⟨hconstants, hleaps⟩ := (Program.admitted_nil_iff hq).mp hadmitted
    exact ⟨hstray, q, hq, hconstants, hleap.mp hleaps⟩
  · rintro ⟨hstray, q, hq, hconstants, hleaps⟩
    have hadmitted := (Program.admitted_nil_iff hq).mpr ⟨hconstants, hleap.mpr hleaps⟩
    rw [Program.ofSource_of_sentences hstray hq hadmitted]

/-- The compiler gives the chunk if there are no errors, and else the errors. -/
theorem compile_eq (source : Bytes) :
    compile source =
      if (Program.ofSource (Utf8.decode source)).errors.isEmpty
      then .ok (Compilation.ofSource source).chunk
      else .error (Program.ofSource (Utf8.decode source)).errors := rfl

/-- A derived program within the limits is compiled. -/
theorem compile_of_sentences {source : Bytes} {p : List Sentence}
    (hstray : ∀ t ∈ (Token.scan (Utf8.decode source)).tokens, t.kind ≠ .stray)
    (hp : Sentences (Token.scan (Utf8.decode source)).tokens p)
    (hadmitted : Program.Admitted [] p) :
    compile source = .ok (Compilation.ofSource source).chunk := by
  rw [compile_eq, Program.ofSource_of_sentences hstray hp hadmitted]
  rfl

/-- The compiler accepts its language and nothing else: it gives a chunk for every source that is
accepted, and for every other one at least one diagnostic. -/
theorem compile_ok_iff_accepted (source : Bytes) :
    ((∃ c, compile source = .ok c) ↔ Accepted (Token.scan (Utf8.decode source)).tokens) ∧
      (Accepted (Token.scan (Utf8.decode source)).tokens ∨
        ∃ d ds, compile source = .error (d :: ds)) := by
  rw [← errors_ofSource_eq_nil_iff, compile_eq]
  cases (Program.ofSource (Utf8.decode source)).errors with
  | nil => exact ⟨⟨fun _ => rfl, fun _ => ⟨_, rfl⟩⟩, .inl rfl⟩
  | cons d ds => exact ⟨⟨fun ⟨c, hc⟩ => (nomatch hc), nofun⟩, .inr ⟨d, ds, rfl⟩⟩

end Lox
