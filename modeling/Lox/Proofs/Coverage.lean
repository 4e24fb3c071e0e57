import Lox.Proofs.Lexical

/-!
# Nothing is lost

A scanner is asked for one token after another. What it answers covers the source: each token comes
with the stretch that was skipped before it, these pieces and what is skipped at the end make up the
source, and the line of each token is told by the line feeds before it. `Covers line cs ps tail`
says so without a word on scanning. The three ways in which a text goes on (it ends, something is
skipped, there is a token) each keep it: `covers_nil`, `Covers.skip` and `Covers.token_cons`.

`scanner_covers` says that the answers of a scanner are the tokens of such a covering and then the
end, for ever.
-/

namespace Lox.Token

/-! ## Coverings -/

/-- What is skipped before some text: blanks, and comments that go up to a line feed or to the end
of all. -/
inductive Skipped : List Char → List Char → Prop where
  | nil {rest : List Char} : Skipped [] rest
  | blank {c : Char} {gap rest : List Char} : c = ' ' ∨ c = '\t' ∨ c = '\r' ∨ c = '\n' →
      Skipped gap rest → Skipped (c :: gap) rest
  | comment {body gap rest : List Char} : (∀ d ∈ body, d ≠ '\n') →
      (∀ d ∈ (gap ++ rest).head?, d = '\n') → Skipped gap rest →
      Skipped ('/' :: '/' :: (body ++ gap)) rest

/-- A token and what is skipped before it. -/
structure Piece where
  gap : List Char
  token : Token

/-- The characters of some pieces. -/
def charsOf (ps : List Piece) : List Char :=
  ps.flatMap fun p => p.gap ++ p.token.lexeme

/-- A text that begins on a line is made up of pieces and a last gap. -/
structure Covers (line : Nat) (cs : List Char) (ps : List Piece) (tail : List Char) : Prop where
  /-- No character is lost, and none is added. -/
  chars : cs = charsOf ps ++ tail
  /-- A gap is skipped before what follows it. -/
  gap : ∀ before p after, ps = before ++ p :: after →
    Skipped p.gap (p.token.lexeme ++ charsOf after ++ tail)
  tail : Skipped tail []
  /-- A token is never empty, and it is not the end. -/
  token : ∀ p ∈ ps, p.token.lexeme ≠ [] ∧ p.token.kind ≠ .eof
  /-- A token has the line on which it begins. -/
  line : ∀ before p after, ps = before ++ p :: after →
    p.token.line = line + (charsOf before ++ p.gap).count '\n'

/-- The characters of some pieces begin with those of the first. -/
theorem charsOf_cons (p : Piece) (ps : List Piece) :
    charsOf (p :: ps) = p.gap ++ p.token.lexeme ++ charsOf ps := by
  simp [charsOf]

/-- A list is split at its first element, or later. -/
theorem split_cons {p q : Piece} {ps before after : List Piece}
    (h : p :: ps = before ++ q :: after) :
    (before = [] ∧ q = p ∧ after = ps) ∨
      ∃ before', before = p :: before' ∧ ps = before' ++ q :: after := by
  rcases List.cons_eq_append_iff.mp h with ⟨rfl, heq⟩ | ⟨before', rfl, heq⟩
  · obtain ⟨rfl, rfl⟩ := List.cons.inj heq
    exact .inl ⟨rfl, rfl, rfl⟩
  · exact .inr ⟨before', rfl, heq⟩

variable {line : Nat} {c : Char} {more rest tail : List Char} {ps : List Piece}

/-- The empty text is covered by nothing. -/
theorem covers_nil (line : Nat) : Covers line [] [] [] where
  chars := rfl
  gap before p after h := by simp at h
  tail := .nil
  token p hp := by cases hp
  line before p after h := by simp at h

/-- A skipped stretch lengthens the gap that it stands before. -/
theorem Stretch.skipped {gap after : List Char} (h : Stretch c more (gap ++ after) none)
    (hgap : Skipped gap after) : Skipped (c :: (more ++ gap)) after := by
  generalize hrest : gap ++ after = rest at h
  cases h with
  | blank hc => exact .blank (isBlank_eq_true_iff.mp hc) hgap
  | comment hrun =>
    subst hrest
    refine .comment (fun d hd => of_decide_eq_true (hrun.all d hd)) ?_ hgap
    intro d hd
    simpa using hrun.stops d hd

/-- A word is an identifier or a keyword. -/
theorem wordKind_ne {kind : Kind} (h : kind ∉ Kind.identifier :: keywords.map Prod.snd)
    (word : List Char) : wordKind word ≠ kind := by
  intro hword
  apply h
  rw [← hword]
  unfold wordKind
  split
  · rename_i entry kind hfind
    exact List.mem_cons_of_mem _ (List.mem_map_of_mem (List.mem_of_find?_eq_some hfind))
  · exact List.mem_cons_self

/-- No stretch is the end. -/
theorem Stretch.kind_ne_eof {kind : Kind} (h : Stretch c more rest (some kind)) : kind ≠ .eof := by
  have hsingles : ∀ entry ∈ singles, entry.2 ≠ .eof := by decide
  have hdoubles : ∀ entry ∈ doubles, entry.2.1 ≠ .eof ∧ entry.2.2 ≠ .eof := by decide
  cases h with
  | whole => decide
  | fraction => decide
  | word => exact wordKind_ne (by decide) _
  | text => decide
  | single hc => exact hsingles _ hc
  | slash => decide
  | alone hc _ => exact (hdoubles _ hc).1
  | doubled hc => exact (hdoubles _ hc).2
  | unclosed => decide
  | foreign => decide

namespace Covers

/-- Before a covered text something may be skipped: it joins the first gap. -/
theorem skip (hstretch : Stretch c more rest none)
    (h : Covers (line + (c :: more).count '\n') rest ps tail) :
    ∃ ps' tail', ps'.map Piece.token = ps.map Piece.token ∧
      Covers line (c :: (more ++ rest)) ps' tail' := by
  cases ps with
  | nil =>
    -- There is no token left, so the stretch joins what is skipped at the end.
    obtain rfl : rest = tail := h.chars
    refine ⟨[], c :: (more ++ rest), rfl, rfl, ?_, ?_, ?_, ?_⟩
    · intro before p after heq
      simp at heq
    · have hend : Stretch c more (rest ++ []) none := by rwa [List.append_nil]
      exact hend.skipped h.tail
    · intro p hp
      cases hp
    · intro before p after heq
      simp at heq
  | cons p ps =>
    have hrest : rest = p.gap ++ (p.token.lexeme ++ charsOf ps ++ tail) := by
      rw [h.chars, charsOf_cons]
      simp
    have hchars : ∀ before, charsOf (⟨c :: (more ++ p.gap), p.token⟩ :: before) =
        c :: more ++ charsOf (p :: before) := by
      intro before
      simp [charsOf_cons]
    refine ⟨⟨c :: (more ++ p.gap), p.token⟩ :: ps, tail, rfl, ?_, ?_, h.tail, ?_, ?_⟩
    · rw [hchars, h.chars]
      simp
    · intro before q after heq
      rcases split_cons heq with ⟨rfl, rfl, rfl⟩ | ⟨before', rfl, rfl⟩
      · exact (hrest ▸ hstretch).skipped (h.gap [] p after rfl)
      · exact h.gap (p :: before') q after rfl
    · intro q hq
      rcases List.mem_cons.mp hq with rfl | hq
      · exact h.token p List.mem_cons_self
      · exact h.token q (List.mem_cons_of_mem p hq)
    · intro before q after heq
      rcases split_cons heq with ⟨rfl, rfl, rfl⟩ | ⟨before', rfl, rfl⟩
      · rw [h.line [] p after rfl, Nat.add_assoc, ← List.count_append]
        rfl
      · rw [h.line (p :: before') q after rfl, hchars, Nat.add_assoc, ← List.count_append,
          List.append_assoc]

/-- Before a covered text there may be a token: it has no gap. -/
theorem token_cons {kind : Kind} (hstretch : Stretch c more rest (some kind))
    (h : Covers (line + (c :: more).count '\n') rest ps tail) :
    Covers line (c :: (more ++ rest)) (⟨[], ⟨kind, c :: more, line⟩⟩ :: ps) tail := by
  have hchars : ∀ before, charsOf (⟨[], ⟨kind, c :: more, line⟩⟩ :: before) =
      c :: more ++ charsOf before := by
    intro before
    simp [charsOf_cons]
  refine ⟨?_, ?_, h.tail, ?_, ?_⟩
  · rw [hchars, h.chars]
    simp
  · intro before p after heq
    rcases split_cons heq with ⟨rfl, rfl, rfl⟩ | ⟨before', rfl, rfl⟩
    · exact .nil
    · exact h.gap before' p after rfl
  · intro p hp
    rcases List.mem_cons.mp hp with rfl | hp
    · exact ⟨List.cons_ne_nil c more, hstretch.kind_ne_eof⟩
    · exact h.token p hp
  · intro before p after heq
    rcases split_cons heq with ⟨rfl, rfl, rfl⟩ | ⟨before', rfl, rfl⟩
    · rfl
    · rw [h.line before' p after rfl, hchars, Nat.add_assoc, ← List.count_append, List.append_assoc]

end Covers

/-- Every scan is a covering. -/
theorem Scans.covers {last : Nat} {cs : List Char} {ts : List Token} (h : Scans line cs ts last) :
    ∃ ps tail, ps.map Piece.token = ts ∧ Covers line cs ps tail := by
  induction h with
  | done => exact ⟨[], [], rfl, covers_nil _⟩
  | skip hstretch _ ih =>
    obtain ⟨ps, tail, hmap, hcovers⟩ := ih
    obtain ⟨ps', tail', hmap', hcovers'⟩ := hcovers.skip hstretch
    exact ⟨ps', tail', hmap'.trans hmap, hcovers'⟩
  | token hstretch _ ih =>
    obtain ⟨ps, tail, hmap, hcovers⟩ := ih
    refine ⟨_, tail, ?_, hcovers.token_cons hstretch⟩
    rw [List.map_cons, hmap]

/-! ## Answers -/

namespace Scanner

/-- The first answers of a scanner. -/
def answers : Nat → Scanner → List Token
  | 0, _ => []
  | n + 1, s => s.next.1 :: answers n s.next.2

/-- Characters that belong to a stretch already are passed over. -/
theorem nextFrom_skip (more rest : List Char) (line : Nat) :
    nextFrom more.length (more ++ rest) line = nextFrom 0 rest line := by
  induction more with
  | nil => rfl
  | cons c more ih => exact ih

/-- A skipped stretch is passed over, and its line feeds are counted. -/
theorem next_of_skip (h : Stretch c more rest none) (line : Nat) :
    next ⟨c :: (more ++ rest), line⟩ = next ⟨rest, line + (c :: more).count '\n'⟩ := by
  simp only [next, nextFrom, step_of_stretch h, List.take_left, nextFrom_skip]

/-- A token is answered with the line on which it begins, and its line feeds are counted. -/
theorem next_of_token {kind : Kind} (h : Stretch c more rest (some kind)) (line : Nat) :
    next ⟨c :: (more ++ rest), line⟩ =
      (⟨kind, c :: more, line⟩, ⟨rest, line + (c :: more).count '\n'⟩) := by
  simp only [next, nextFrom, step_of_stretch h, List.take_left, List.drop_left]

/-- At the end there is only the end. -/
theorem answers_nil (line n : Nat) :
    answers n ⟨[], line⟩ = List.replicate n (Token.atEnd line) := by
  induction n with
  | zero => rfl
  | succ n ih =>
    rw [List.replicate_succ, ← ih]
    rfl

end Scanner

/-- A scanner answers with the tokens of the scan, and then with the end. -/
theorem Scans.answers_eq {last : Nat} {cs : List Char} {ts : List Token} (h : Scans line cs ts last)
    (extra : Nat) : Scanner.answers (ts.length + extra) ⟨cs, line⟩ =
      ts ++ List.replicate extra (Token.atEnd last) := by
  induction h with
  | done =>
    rw [List.length_nil, Nat.zero_add]
    exact Scanner.answers_nil _ extra
  | @skip line last c more rest ts hstretch _ ih =>
    rw [← ih]
    cases ts.length + extra with
    | zero => rfl
    | succ n => rw [Scanner.answers, Scanner.answers, Scanner.next_of_skip hstretch]
  | token hstretch _ ih =>
    rw [List.length_cons, Nat.add_right_comm, Scanner.answers, Scanner.next_of_token hstretch, ih]
    rfl

/-- The scanner loses nothing. A source is made up of tokens and of what is skipped before, between
and after them; no token is empty, and each has the line on which it begins. There are at most as
many tokens as characters. A scanner answers with these tokens in order, and then with the end of
the source, on its last line, however often it is asked; scanning at once finds the same. -/
theorem scanner_covers (cs : List Char) :
    ∃ ps tail, Covers 1 cs ps tail ∧ ps.length ≤ cs.length ∧
      (∀ extra, Scanner.answers (ps.length + extra) ⟨cs, 1⟩ =
        ps.map Piece.token ++ List.replicate extra (Token.atEnd (1 + cs.count '\n'))) ∧
      scan cs = ⟨ps.map Piece.token, 1 + cs.count '\n'⟩ := by
  have hscans := scans_scan cs
  have hlength := hscans.length_le
  have hanswers := hscans.answers_eq
  obtain ⟨ps, tail, hmap, hcovers⟩ := hscans.covers
  rw [← hmap, List.length_map] at hlength hanswers
  rw [hscans.last_eq] at hanswers
  refine ⟨ps, tail, hcovers, hlength, hanswers, ?_⟩
  rw [hmap, ← hscans.last_eq]

end Lox.Token
