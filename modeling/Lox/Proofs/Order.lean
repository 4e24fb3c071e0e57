import Lox.Proofs.Rounds

/-!
# Errors in the order of the source

What is left to read, with the end after it, is one list of tokens, and their lines never go back
(`Scans.pairwise_line`). The complaint of a round is about a token of its statement or about the one
that comes next, so it is on no later line than whatever follows the statement. A stray met in
recovery is one of the tokens passed over. So each error comes no later than those recorded after
it, within its round and in the rounds that follow (`Round.Follow.pairwise_errors`), and
`errors_in_order` says so for a source. It also says which lines they are on: a line feed of the
source is one byte, and reading characters makes no other ones (`Utf8.count_decode`).
-/

namespace Lox

/-! ## Line feeds -/

namespace Utf8

/-- Bytes without a line feed are read as characters without one. -/
theorem count_decode_eq_zero {bs : Bytes} (h : lineFeed ∉ bs) : (decode bs).count '\n' = 0 := by
  refine List.count_eq_zero.mpr ?_
  intro hmem
  exact h (mem_of_mem_decode (by decide) hmem)

/-- Reading characters neither makes line feeds nor loses any. -/
theorem count_decode (bs : Bytes) : (decode bs).count '\n' = bs.count lineFeed := by
  induction hcount : bs.count lineFeed generalizing bs with
  | zero => exact count_decode_eq_zero (List.count_eq_zero.mp hcount)
  | succ n ih =>
    have hmem : lineFeed ∈ bs := List.count_pos_iff.mp (by omega)
    obtain ⟨front, back, rfl, hfront⟩ := List.eq_append_cons_of_mem hmem
    rw [List.count_append, List.count_eq_zero.mpr hfront, List.count_cons_self] at hcount
    rw [decode_append_lineFeed, List.count_append, count_decode_eq_zero hfront,
      List.count_cons_self, ih back (by omega)]
    omega

end Utf8

/-! ## Tokens in the order of their lines -/

/-- A list of tokens whose lines never go back. -/
def InOrder (ts : List Token) : Prop :=
  ts.Pairwise (fun t u => t.line ≤ u.line)

/-- The lines of the tokens of a text, and of its end, never go back. -/
theorem Token.Scans.pairwise_line {line last : Nat} {cs : List Char} {ts : List Token}
    (h : Scans line cs ts last) : InOrder (ts ++ [.atEnd last]) := by
  refine List.pairwise_append.mpr ⟨?_, List.pairwise_singleton _ _, ?_⟩
  · induction h with
    | done => exact List.Pairwise.nil
    | skip _ _ ih => exact ih
    | token _ hrest ih =>
      refine List.Pairwise.cons ?_ ih
      intro u hu
      exact Nat.le_trans (Nat.le_add_right ..) (hrest.le_line u hu)
  · intro t ht u hu
    obtain rfl := List.mem_singleton.mp hu
    exact h.line_le t ht

/-- The tokens to be read, and the end. -/
def stream (finish : Token) (cells : List Cell) : List Token :=
  cells.flatMap Cell.tokens ++ [finish]

/-- What is to be read begins with the tokens of the first cells. -/
theorem stream_append (finish : Token) (xs ys : List Cell) :
    stream finish (xs ++ ys) = xs.flatMap Cell.tokens ++ stream finish ys := by
  rw [stream, stream, List.flatMap_append, List.append_assoc]

/-- What is to be read begins with what comes next. -/
theorem stream_eq_cons (finish : Token) (cells : List Cell) :
    ∃ ts, stream finish cells = Statement.upcoming finish cells :: ts := by
  cases cells with
  | nil => exact ⟨[], rfl⟩
  | cons c cs => exact ⟨c.strays ++ stream finish cs, List.append_assoc (c.token :: c.strays) _ _⟩

/-- Nothing that is left is on an earlier line than what comes next. -/
theorem upcoming_le {finish : Token} {cells : List Cell} (h : InOrder (stream finish cells)) :
    ∀ t ∈ stream finish cells, (Statement.upcoming finish cells).line ≤ t.line := by
  obtain ⟨ts, hts⟩ := stream_eq_cons finish cells
  rw [hts] at h ⊢
  exact List.forall_mem_cons.mpr ⟨Nat.le_refl _, (List.pairwise_cons.mp h).1⟩

/-! ## Errors in the order of their lines -/

namespace Round

variable {finish : Token} {r : Round} {rest : List Cell} {quiet : Bool} {rs : List Round}

/-- What is met in recovery is among the tokens passed over. -/
theorem Sound.mem_of_met (h : r.Sound finish rest) :
    ∀ d ∈ r.met?, d.token ∈ r.dropped.flatMap Cell.tokens := by
  intro d hd
  rw [h.met] at hd
  obtain ⟨t, ht, rfl⟩ := Option.map_eq_some_iff.mp hd
  obtain ⟨c, hc, hstray⟩ := List.mem_flatMap.mp (List.mem_of_head? ht)
  exact List.mem_flatMap.mpr ⟨c, hc, List.mem_cons_of_mem _ hstray⟩

/-- The complaint of a round is on no later line than what follows the statement. -/
theorem Sound.said_le (h : r.Sound finish rest)
    (horder : InOrder (stream finish (r.cells ++ rest))) :
    ∀ d ∈ r.said?, ∀ t ∈ stream finish (r.dropped ++ rest), d.line ≤ t.line := by
  intro d hd t ht
  rw [cells, List.append_assoc, stream_append] at horder
  obtain ⟨-, hafter, hacross⟩ := List.pairwise_append.mp horder
  rcases h.said d hd with hmem | hnext
  · exact hacross _ hmem _ ht
  · rw [Diagnostic.line, hnext]
    exact upcoming_le hafter t ht

/-- Every error is about a token of the source or about its end. -/
theorem Follow.mem_stream (h : Follow finish quiet rs) :
    ∀ d ∈ rs.flatMap errors, d.token ∈ stream finish (rs.flatMap cells) := by
  induction rs generalizing quiet with
  | nil => exact List.forall_mem_nil _
  | cons r rs ih =>
    intro d hd
    rw [List.flatMap_cons] at hd ⊢
    rw [cells, List.append_assoc, stream_append]
    rcases List.mem_append.mp hd with hround | hlater
    · rcases List.mem_append.mp hround with hsaid | hmet
      · rcases h.2.1.said d (by simpa using hsaid) with hmem | hnext
        · exact List.mem_append_left _ hmem
        · refine List.mem_append_right _ ?_
          obtain ⟨ts, hts⟩ := stream_eq_cons finish (r.dropped ++ rs.flatMap cells)
          rw [hts, hnext]
          exact List.mem_cons_self
      · refine List.mem_append_right _ ?_
        rw [stream_append]
        exact List.mem_append_left _ (h.2.1.mem_of_met d (by simpa using hmet))
    · refine List.mem_append_right _ ?_
      rw [stream_append]
      exact List.mem_append_right _ (ih h.2.2 d hlater)

/-- The errors of rounds come in the order of their lines. -/
theorem Follow.pairwise_errors (h : Follow finish quiet rs)
    (horder : InOrder (stream finish (rs.flatMap cells))) :
    (rs.flatMap errors).Pairwise (fun d e => d.line ≤ e.line) := by
  induction rs generalizing quiet with
  | nil => exact List.Pairwise.nil
  | cons r rs ih =>
    rw [List.flatMap_cons] at horder ⊢
    have hsaid := h.2.1.said_le horder
    rw [stream_append] at horder
    obtain ⟨-, hafter, hacross⟩ := List.pairwise_append.mp horder
    have hlater := h.2.2.mem_stream
    refine List.pairwise_append.mpr ⟨?_, ih h.2.2 hafter, ?_⟩
    · refine List.pairwise_append.mpr ⟨?_, ?_, ?_⟩
      · cases r.said? <;> simp
      · cases r.met? <;> simp
      · intro d hd e he
        refine hsaid d (by simpa using hd) e.token ?_
        rw [stream_append]
        exact List.mem_append_left _ (h.2.1.mem_of_met e (by simpa using he))
    · intro d hd e he
      rcases List.mem_append.mp hd with hfirst | hmet
      · refine hsaid d (by simpa using hfirst) e.token ?_
        rw [stream_append]
        exact List.mem_append_right _ (hlater e he)
      · refine hacross d.token ?_ e.token (hlater e he)
        have hdropped := h.2.1.mem_of_met d (by simpa using hmet)
        rw [cells, List.flatMap_append]
        exact List.mem_append_right _ hdropped

end Round

namespace Feed

variable {f : Feed} {rs : List Round} {es : List Diagnostic}

/-- What is complained about at the opening is a stray there. -/
theorem mem_of_opening (f : Feed) : ∀ d ∈ f.opening?, d.token ∈ f.leading := by
  intro d hd
  obtain ⟨t, ht, rfl⟩ := Option.map_eq_some_iff.mp hd
  exact List.mem_of_head? ht

/-- Every error of a source is about one of its tokens, or about its end. -/
theorem ReadIn.mem_tokens (h : f.ReadIn rs es) :
    ∀ d ∈ es, d.token ∈ f.leading ++ stream f.finish f.cells := by
  intro d hd
  rw [h.errors] at hd
  rcases List.mem_append.mp hd with hopening | hround
  · exact List.mem_append_left _ (mem_of_opening f d (by simpa using hopening))
  · rw [h.cells]
    exact List.mem_append_right _ (h.follow.mem_stream d hround)

/-- The errors of a source come in the order of its tokens. -/
theorem ReadIn.pairwise (h : f.ReadIn rs es)
    (horder : InOrder (f.leading ++ stream f.finish f.cells)) :
    es.Pairwise (fun d e => d.line ≤ e.line) := by
  obtain ⟨-, hstream, hacross⟩ := List.pairwise_append.mp horder
  rw [h.cells] at hstream hacross
  rw [h.errors]
  refine List.pairwise_append.mpr ⟨?_, h.follow.pairwise_errors hstream, ?_⟩
  · cases f.opening? <;> simp
  · intro d hd e he
    exact hacross d.token (mem_of_opening f d (by simpa using hd)) e.token
      (h.follow.mem_stream e he)

/-- Grouping the tokens of a scan leaves them in their order. -/
theorem tokens_ofScanned (s : Token.Scanned) :
    (ofScanned s).leading ++ stream (ofScanned s).finish (ofScanned s).cells =
      s.tokens ++ [.atEnd s.endLine] := by
  rw [← flatten_ofScanned s, stream, ← List.append_assoc]
  rfl

end Feed

/-- The errors of a rejected source are reported in the order of their lines, and each line is one
of the source: lines are counted from one, and there is one more than there are line feeds. -/
theorem errors_in_order {source : Bytes} {es : List Diagnostic}
    (h : compile source = .error es) :
    es.Pairwise (fun d e => d.line ≤ e.line) ∧
      ∀ d ∈ es, 1 ≤ d.line ∧ d.line ≤ 1 + source.count Utf8.lineFeed := by
  have hscans := Token.scans_scan (Utf8.decode source)
  obtain ⟨rs, hread⟩ := Feed.exists_readIn (.ofScanned (Token.scan (Utf8.decode source)))
  obtain rfl := errors_of_compile h
  have horder := hscans.pairwise_line
  rw [← Feed.tokens_ofScanned] at horder
  refine ⟨hread.pairwise horder, ?_⟩
  intro d hd
  have hmem := hread.mem_tokens d hd
  rw [Feed.tokens_ofScanned] at hmem
  rw [← Utf8.count_decode, ← hscans.last_eq]
  rcases List.mem_append.mp hmem with htoken | hend
  · exact ⟨hscans.le_line _ htoken, hscans.line_le _ htoken⟩
  · rw [Diagnostic.line, List.mem_singleton.mp hend]
    refine ⟨?_, Nat.le_refl _⟩
    rw [hscans.last_eq]
    exact Nat.le_add_right ..

/-- A source of four lines with errors on three of them, the last one at its end. -/
def faults : Bytes :=
  Utf8.ofString "1 +;\n2 * * 3;\n4;\n(5"

/-- The errors of `faults`, which are on its first, second and fourth line. -/
theorem compile_faults :
    compile faults =
      .error [⟨.expectExpression, ⟨.semicolon, [';'], 1⟩⟩, ⟨.expectExpression, ⟨.star, ['*'], 2⟩⟩,
        ⟨.expectRightParen, .atEnd 4⟩] := by
  have herrors : (Program.ofSource (Utf8.decode faults)).errors =
      [⟨.expectExpression, ⟨.semicolon, [';'], 1⟩⟩, ⟨.expectExpression, ⟨.star, ['*'], 2⟩⟩,
        ⟨.expectRightParen, .atEnd 4⟩] := by decide +kernel
  rw [compile_eq, herrors]
  rfl

/-- They are in order, on lines of the source. -/
theorem errors_in_order_faults :
    ∃ es, compile faults = .error es ∧ 2 < es.length ∧
      es.Pairwise (fun d e => d.line ≤ e.line) ∧ ∀ d ∈ es, 1 ≤ d.line ∧ d.line ≤ 4 := by
  obtain ⟨horder, hlines⟩ := errors_in_order compile_faults
  have hcount : 1 + faults.count Utf8.lineFeed = 4 := by decide +kernel
  rw [hcount] at hlines
  exact ⟨_, compile_faults, by decide, horder, hlines⟩

end Lox
