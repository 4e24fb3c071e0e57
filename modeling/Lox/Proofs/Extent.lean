import Lox.Proofs.Levels
import Lox.Proofs.Lexical
import Lox.Proofs.Utf8

/-!
# How far compiled code extends

What the chunk of a source holds is bounded by the length of the source. No token begins beyond the
last line of the text or is longer than the text (`Lox.Proofs.Lexical`), so no line of code is
greater than the number of line feeds allows and no text among the constants has more characters
than the source. An operator becomes seven bytes of code at most, and every other token fewer.
`within_of_compile` puts these bounds together.
-/

namespace Lox

open Grammar

/-! ## The tokens of trees -/

/-- The tokens of a tree are those that it is derived from. -/
theorem Grammar.Derives.tokens_eq {s : Stratum} {ts : List Token} {e : Tree} (h : Derives s ts e) :
    e.tokens = ts := by
  induction h with
  | operand _ ih => exact ih
  | chain _ _ _ ihl ihr | join _ _ _ ihl ihr => rw [Tree.tokens, ihl, ihr]
  | sign _ _ ih => rw [Tree.tokens, ih]
  | literal _ => rfl
  | group _ _ _ ih => rw [Tree.tokens, ih]

/-! ## Sizes -/

/-- A token of an expression becomes no more than seven bytes. -/
theorem Tree.size_expr_le (e : Tree) : e.expr.size ≤ 7 * e.tokens.length := by
  induction e with
  | literal t v =>
    have hpush : Expr.pushSize v ≤ 2 := by cases v <;> simp [Expr.pushSize]
    have hsize : (literal t v).expr.size = Expr.pushSize v := rfl
    rw [hsize, tokens, List.length_singleton]
    omega
  | group l e r ih =>
    have hsize : (group l e r).expr.size = e.expr.size := rfl
    rw [hsize, tokens, List.length_cons, List.length_append]
    omega
  | unary op t e ih =>
    rw [expr, Expr.size_unary, tokens, List.length_cons]
    omega
  | binary op t l r ihl ihr =>
    have hopcodes : op.opcodes.length ≤ 2 := by cases op <;> decide
    rw [expr, Expr.size_binary, tokens, List.length_append, List.length_cons]
    omega
  | logic op t l r ihl ihr =>
    have hlogic : Expr.logicSize op ≤ 7 := by cases op <;> decide
    rw [expr, Expr.size_logic, tokens, List.length_append, List.length_cons]
    omega

section Code

variable {ts : List Token} {p : List Sentence}

/-- What becomes of a value is at most one byte of code. -/
theorem Use.size_codeThen_le (use : Use) (after : Code) :
    (use.codeThen after).size ≤ 1 + after.size := by
  cases use with
  | print line | drop line => exact Nat.le_refl _
  | result | nothing => exact Nat.le_add_left ..

/-- A statement becomes no more bytes than its expression and one instruction. -/
theorem size_sentenceThen_le (pool : Pool) (after : Code) {σ : Sentence}
    (h : Derives .or ts σ.tree) (p : List Sentence) :
    (Machine.sentencesThen pool after (σ :: p)).size
      ≤ 7 * ts.length + 1 + (Machine.sentencesThen pool after p).size := by
  have hexpr := σ.tree.size_expr_le
  have huse := (Program.useOfSentence p.isEmpty σ).size_codeThen_le
    (Machine.sentencesThen pool after p)
  rw [h.tokens_eq] at hexpr
  rw [Machine.sentencesThen, Expr.size_codeThen]
  omega

/-- A program becomes no more than seven bytes for each token, and one more. -/
theorem size_sentencesThen_le (pool : Pool) (after : Code) (h : Sentences ts p) :
    (Machine.sentencesThen pool after p).size ≤ 7 * ts.length + 1 + after.size := by
  induction h with
  | nil => exact Nat.le_add_left ..
  | @print w s us vs e p _ he _ _ ih =>
    have hle := size_sentenceThen_le pool after (σ := .print w e s) he p
    simp only [List.length_cons, List.length_append]
    omega
  | @expr s us vs e p he _ _ ih =>
    have hle := size_sentenceThen_le pool after (σ := .expr e (some s)) he p
    simp only [List.length_cons, List.length_append]
    omega
  | @last us e he => exact size_sentenceThen_le pool after (σ := .expr e none) he []

/-! ## Lines -/

/-- All lines of some code are such. -/
def Code.LinesAre (P : Int → Prop) (k : Code) : Prop :=
  ∀ q ∈ k.placed, P q.line

variable {P : Int → Prop} {pool : Pool} {after : Code}

/-- Instructions put in front with such a line leave all lines such. -/
theorem Code.LinesAre.prepend (h : after.LinesAre P) {line : Int} (hline : P line)
    (is : List Instr) : (after.prepend line is).LinesAre P := by
  intro q hq
  rcases List.mem_append.mp hq with hq | hq
  · obtain ⟨i, -, rfl⟩ := List.mem_map.mp hq
    exact hline
  · exact h q hq

/-- If all lines of the code are such, so is the line of each byte. -/
theorem Code.LinesAre.lines {k : Code} (h : k.LinesAre P) : ∀ l ∈ k.lines, P l := by
  intro l hl
  obtain ⟨q, hq, hmem⟩ := List.mem_flatMap.mp hl
  obtain rfl := List.eq_of_mem_replicate hmem
  exact h q hq

/-- Code has the lines of the tokens it is made from. -/
theorem linesAre_codeThen {e : Tree} (he : ∀ t ∈ e.tokens, P t.line) (h : after.LinesAre P) :
    (e.expr.codeThen pool after).LinesAre P := by
  induction e generalizing after with
  | literal t v => exact h.prepend (he t (List.mem_singleton_self t)) _
  | group l e r ih =>
    refine ih (fun t ht => he t ?_) h
    exact List.mem_cons_of_mem l (List.mem_append_left _ ht)
  | unary op t e ih =>
    obtain ⟨ht, hoperand⟩ := List.forall_mem_cons.mp he
    exact ih hoperand (h.prepend ht _)
  | binary op t l r ihl ihr =>
    obtain ⟨hl, hright⟩ := List.forall_mem_append.mp he
    obtain ⟨ht, hr⟩ := List.forall_mem_cons.mp hright
    exact ihl hl (ihr hr (h.prepend ht _))
  | logic op t l r ihl ihr =>
    obtain ⟨hl, hright⟩ := List.forall_mem_append.mp he
    obtain ⟨ht, hr⟩ := List.forall_mem_cons.mp hright
    exact ihl hl ((ihr hr h).prepend ht _)

/-- A program's code has the lines of the program's tokens. -/
theorem linesAre_sentencesThen (hp : Sentences ts p) (hts : ∀ t ∈ ts, P t.line)
    (h : after.LinesAre P) : (Machine.sentencesThen pool after p).LinesAre P := by
  induction hp with
  | nil => exact h
  | @print w s us vs e p _ he _ _ ih =>
    obtain ⟨-, hrest⟩ := List.forall_mem_cons.mp hts
    obtain ⟨hus, hrest⟩ := List.forall_mem_append.mp hrest
    obtain ⟨hs, hvs⟩ := List.forall_mem_cons.mp hrest
    rw [← he.tokens_eq] at hus
    exact linesAre_codeThen hus ((ih hvs).prepend hs _)
  | @expr s us vs e p he _ hq ih =>
    obtain ⟨hus, hrest⟩ := List.forall_mem_append.mp hts
    obtain ⟨hs, hvs⟩ := List.forall_mem_cons.mp hrest
    rw [← he.tokens_eq] at hus
    refine linesAre_codeThen hus ?_
    cases p with
    | nil => exact ih hvs
    | cons τ p => exact (ih hvs).prepend hs _
  | last he =>
    rw [← he.tokens_eq] at hts
    exact linesAre_codeThen hts h

end Code

/-! ## Compiled chunks -/

/-- What a chunk holds, if it comes from a source of `n` bytes. -/
structure Chunk.Within (n : Nat) (c : Chunk) : Prop where
  size_le : c.size ≤ 7 * n + 3
  lines : ∀ l ∈ c.lines, 0 ≤ l ∧ l ≤ (n + 1 : Nat)
  length_consts : c.consts.length ≤ Pool.capacity
  regular : ∀ v ∈ c.consts, v.Regular
  texts : ∀ b, .text b ∈ c.consts → ∃ cs, b = Utf8.encode cs ∧ cs.length ≤ n

/-- The chunk of an accepted source is bounded by the length of the source. -/
theorem within_of_compile {source : Bytes} {c : Chunk} (h : compile source = .ok c) :
    c.Within source.length := by
  obtain ⟨p, hp, -, rfl⟩ := exists_program_of_compile h
  have hchars := Utf8.length_decode_le source
  have hscans := Token.scans_scan (Utf8.decode source)
  have hend : (Token.scan (Utf8.decode source)).endLine ≤ source.length + 1 := by
    have hcount := List.count_le_length (a := '\n') (l := Utf8.decode source)
    rw [hscans.last_eq]
    omega
  have hpool := Pool.holds_addAll (Program.regular_literals hp)
  refine ⟨?_, ?_, hpool.length_le, hpool.regular (Program.regular_literals hp), ?_⟩
  · have hsize := size_sentencesThen_le (Pool.addAll [] (literals p))
      (Machine.returnCode (Token.scan (Utf8.decode source)).endLine (Machine.givesResult p)) hp
    have hreturn (line : Nat) (result : Bool) : (Machine.returnCode line result).size ≤ 2 := by
      cases result
      · exact Nat.le_refl 2
      · exact Nat.le_succ 1
    have hcounted := Machine.counted_sentencesThen (Pool.addAll [] (literals p))
      (Machine.counted_returnCode (Token.scan (Utf8.decode source)).endLine
        (Machine.givesResult p)) p
    have htokens := hscans.length_le
    have hle := hreturn (Token.scan (Utf8.decode source)).endLine (Machine.givesResult p)
    rw [hcounted] at hsize
    change (Code.bytes _).length ≤ _
    omega
  · refine (linesAre_sentencesThen hp (fun t ht => ?_) ?_).lines
    · have hle := hscans.line_le t ht
      exact ⟨Int.natCast_nonneg _, Int.ofNat_le.mpr (Nat.le_trans hle hend)⟩
    · have hnone : Code.LinesAre (fun l => 0 ≤ l ∧ l ≤ (source.length + 1 : Nat)) {} :=
        List.forall_mem_nil _
      exact hnone.prepend ⟨Int.natCast_nonneg _, Int.ofNat_le.mpr hend⟩ _
  · intro b hb
    obtain ⟨t, ht, hliteral⟩ := hp.exists_literal (hpool.mem_of_mem _ hb).1
    cases hliteral with
    | text _ =>
      refine ⟨_, rfl, ?_⟩
      have hle := hscans.length_lexeme_le t ht
      rw [List.length_dropLast, List.length_drop]
      omega

end Lox
