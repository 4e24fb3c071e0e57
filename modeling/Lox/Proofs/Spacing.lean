import Lox.Proofs.Lexical
import Lox.Proofs.Lines
import Lox.Proofs.Utf8

/-!
# Layout

The lexemes of a source may be laid out anew: `Relaid ts cs` says that the text `cs` has the lexemes
of the tokens `ts` in order, with separators between them. A separator begins with a blank, so it
ends whatever stands before it, and goes on with blanks and comments, which are skipped.

Every token other than a stray is read again from its lexeme before a blank or the end
(`Stretch.respaced`). So a text that is laid out anew has the same tokens, up to their lines, and
lines are never looked at: `sameButLines_of_relaid`.
-/

namespace Lox

namespace Token

/-! ## Separators -/

/-- Blanks, and comments that are ended by a line feed. -/
inductive Gap : List Char → Prop where
  | nil : Gap []
  | blank {c : Char} {cs : List Char} : isBlank c = true → Gap cs → Gap (c :: cs)
  | comment {body cs : List Char} : (∀ d ∈ body, d ≠ '\n') → Gap cs →
      Gap ('/' :: '/' :: (body ++ '\n' :: cs))

/-- A separator: a blank, and then any blanks and comments. -/
def Separator (sep : List Char) : Prop :=
  ∃ c cs, sep = c :: cs ∧ isBlank c = true ∧ Gap cs

/-- A separator is a gap of its own. -/
theorem Separator.gap {sep : List Char} (h : Separator sep) : Gap sep := by
  obtain ⟨c, cs, rfl, hblank, hgap⟩ := h
  exact .blank hblank hgap

section Skipped

variable {line last : Nat} {cs : List Char} {ts : List Token}

/-- A blank before a text adds no token. -/
theorem Scans.blank {c : Char} (hc : isBlank c = true)
    (h : Scans (line + [c].count '\n') cs ts last) : Scans line (c :: cs) ts last := by
  have hstretch : Stretch c [] cs none := .blank hc
  exact .skip hstretch h

/-- A comment leaves the line feed that ends it. -/
theorem Scans.comment {body : List Char} (hbody : ∀ d ∈ body, d ≠ '\n')
    (h : Scans line ('\n' :: cs) ts last) :
    Scans line ('/' :: '/' :: (body ++ '\n' :: cs)) ts last := by
  have hrun : Run (· ≠ '\n') body ('\n' :: cs) :=
    ⟨fun d hd => decide_eq_true (hbody d hd), by simp⟩
  have hcount : ('/' :: '/' :: body).count '\n' = 0 := by
    have hnone : body.count '\n' = 0 := List.count_eq_zero.mpr fun hmem => hbody '\n' hmem rfl
    simp [hnone]
  have hstretch : Stretch '/' ('/' :: body) ('\n' :: cs) none := .comment hrun
  exact .skip hstretch (hcount ▸ h)

/-- A gap is passed over. -/
theorem Gap.scans {gap : List Char} (hgap : Gap gap)
    (h : Scans (line + gap.count '\n') cs ts last) : Scans line (gap ++ cs) ts last := by
  induction hgap generalizing line with
  | nil => exact h
  | @blank c gap hblank _ ih =>
    apply Scans.blank hblank
    apply ih
    rw [Nat.add_assoc, ← List.count_append]
    exact h
  | @comment body gap hbody _ ih =>
    have hcount : ('/' :: '/' :: (body ++ '\n' :: gap)).count '\n' = 1 + gap.count '\n' := by
      have hnone : body.count '\n' = 0 := List.count_eq_zero.mpr fun hmem => hbody '\n' hmem rfl
      simp [hnone, Nat.add_comm]
    rw [hcount, ← Nat.add_assoc] at h
    have hfeed : Scans line ('\n' :: (gap ++ cs)) ts last := .blank rfl (ih h)
    rw [List.cons_append, List.cons_append, List.append_assoc, List.cons_append]
    exact .comment hbody hfeed

end Skipped

/-! ## Tokens read again -/

/-- A text that ends whatever stands before it: it is empty, or begins with a blank. -/
def Bounded (cs : List Char) : Prop :=
  ∀ d ∈ cs.head?, isBlank d = true

/-- The end of the text ends a token. -/
theorem Bounded.nil : Bounded [] :=
  fun _ hd => by cases hd

/-- A separator ends the token before it. -/
theorem Separator.bounded {sep : List Char} (h : Separator sep) (cs : List Char) :
    Bounded (sep ++ cs) := by
  obtain ⟨c, gap, rfl, hblank, -⟩ := h
  intro d hd
  obtain rfl : c = d := by simpa using hd
  exact hblank

/-- A run of characters that are no blanks ends where a bounded text begins. -/
theorem Bounded.run {p : Char → Bool} (hp : ∀ d, isBlank d = true → p d = false)
    {run rest cs : List Char} (h : Run p run rest) (hcs : Bounded cs) : Run p run cs :=
  ⟨h.all, fun d hd => hp d (hcs d hd)⟩

/-- A token is read again wherever its lexeme stands before a blank or the end. -/
theorem Stretch.respaced {c : Char} {more rest cs : List Char} {kind : Kind}
    (h : Stretch c more rest (some kind)) (hkind : kind ≠ .stray) (hcs : Bounded cs) :
    Stretch c more cs (some kind) := by
  cases h with
  | whole hc hrun _ =>
    refine .whole hc (hcs.run (fun d => isDigit_of_isBlank) hrun) ?_
    rintro d tail rfl
    cases hcs '.' rfl
  | fraction hc hds hd hes => exact .fraction hc hds hd (hcs.run (fun d => isDigit_of_isBlank) hes)
  | word hc hrun =>
    refine .word hc (hcs.run (fun d hd => ?_) hrun)
    rw [isWordPart, isLetter_of_isBlank hd, isDigit_of_isBlank hd]
    rfl
  | text hbody => exact .text hbody
  | single hc => exact .single hc
  | slash _ =>
    refine .slash ?_
    rintro d hd rfl
    cases hcs '/' hd
  | alone hc _ =>
    refine .alone hc ?_
    rintro d hd rfl
    cases hcs '=' hd
  | doubled hc => exact .doubled hc
  | unclosed _ => exact absurd rfl hkind
  | foreign _ => exact absurd rfl hkind

/-- A token that is not stray, as it is read before some text. -/
def Proper (t : Token) : Prop :=
  t.kind ≠ .stray ∧ ∃ c more rest, t.lexeme = c :: more ∧ Stretch c more rest (some t.kind)

/-- Every token of a scan was read as a stretch. -/
theorem Scans.exists_stretch {line last : Nat} {cs : List Char} {ts : List Token}
    (h : Scans line cs ts last) {t : Token} (ht : t ∈ ts) :
    ∃ c more rest, t.lexeme = c :: more ∧ Stretch c more rest (some t.kind) := by
  induction h with
  | done => cases ht
  | skip _ _ ih => exact ih ht
  | token hstretch _ ih =>
    rcases List.mem_cons.mp ht with rfl | ht
    · exact ⟨_, _, _, rfl, hstretch⟩
    · exact ih ht

/-! ## Texts laid out anew -/

/-- The lexemes of some tokens, with a separator between any two, and perhaps one at the end. -/
inductive Spaced : List Token → List Char → Prop where
  | nil : Spaced [] []
  | last {t : Token} {sep : List Char} : sep = [] ∨ Separator sep → Spaced [t] (t.lexeme ++ sep)
  | cons {t u : Token} {ts : List Token} {sep cs : List Char} : Separator sep →
      Spaced (u :: ts) cs → Spaced (t :: u :: ts) (t.lexeme ++ (sep ++ cs))

/-- The lexemes of some tokens, with separators between them, perhaps one before them and perhaps
one after them. -/
def Relaid (ts : List Token) (cs : List Char) : Prop :=
  ∃ lead rest, cs = lead ++ rest ∧ (lead = [] ∨ Separator lead) ∧ Spaced ts rest

/-- From any line on, a text is scanned as these tokens, up to their lines. -/
def Rereads (cs : List Char) (ts : List Token) : Prop :=
  ∀ line, ∃ ts' last, Scans line cs ts' last ∧ ts'.map forget = ts.map forget

namespace Rereads

variable {cs : List Char} {ts : List Token}

/-- The empty text has no tokens. -/
theorem nil : Rereads [] [] :=
  fun line => ⟨[], line, .done, rfl⟩

/-- Blanks and comments before a text add no token. -/
theorem gap {gap : List Char} (hgap : Gap gap) (h : Rereads cs ts) : Rereads (gap ++ cs) ts := by
  intro line
  obtain ⟨ts', last, hscans, hforget⟩ := h (line + gap.count '\n')
  exact ⟨ts', last, hgap.scans hscans, hforget⟩

/-- A separator before a text adds no token, if there is one. -/
theorem optional {sep : List Char} (hsep : sep = [] ∨ Separator sep) (h : Rereads cs ts) :
    Rereads (sep ++ cs) ts := by
  rcases hsep with rfl | hsep
  · exact h
  · exact h.gap hsep.gap

/-- A token that is spelled before a bounded text is read before the tokens of that text. -/
theorem token {t : Token} (ht : t.Proper) (hcs : Bounded cs) (h : Rereads cs ts) :
    Rereads (t.lexeme ++ cs) (t :: ts) := by
  intro line
  obtain ⟨hkind, c, more, rest, hlexeme, hstretch⟩ := ht
  obtain ⟨ts', last, hscans, hforget⟩ := h (line + (c :: more).count '\n')
  refine ⟨⟨t.kind, c :: more, line⟩ :: ts', last, ?_, ?_⟩
  · rw [hlexeme]
    exact .token (hstretch.respaced hkind hcs) hscans
  · rw [List.map_cons, List.map_cons, hforget, forget, forget, hlexeme]

end Rereads

/-- Lexemes with separators between them are scanned as the tokens they come from. -/
theorem Spaced.rereads {ts : List Token} {cs : List Char} (h : Spaced ts cs)
    (hts : ∀ t ∈ ts, t.Proper) : Rereads cs ts := by
  induction h with
  | nil => exact .nil
  | @last t sep hsep =>
    have hproper : t.Proper := hts t (List.mem_singleton_self t)
    have hend : Rereads sep [] := by
      rw [← List.append_nil sep]
      exact Rereads.nil.optional hsep
    refine hend.token hproper ?_
    rcases hsep with rfl | hsep
    · exact Bounded.nil
    · rw [← List.append_nil sep]
      exact hsep.bounded []
  | @cons t u ts sep cs hsep _ ih =>
    have hproper : t.Proper := hts t List.mem_cons_self
    have hrest : Rereads cs (u :: ts) := ih fun v hv => hts v (List.mem_cons_of_mem t hv)
    exact (hrest.gap hsep.gap).token hproper (hsep.bounded cs)

/-- A text that is laid out anew has the tokens that it was laid out from, up to their lines. -/
theorem Relaid.rereads {ts : List Token} {cs : List Char} (h : Relaid ts cs)
    (hts : ∀ t ∈ ts, t.Proper) : Rereads cs ts := by
  obtain ⟨lead, rest, rfl, hlead, hrest⟩ := h
  exact (hrest.rereads hts).optional hlead

/-- A text laid out anew has the same tokens, up to their lines. -/
theorem scan_of_relaid {cs cs' : List Char} (hstray : ∀ t ∈ (scan cs).tokens, t.kind ≠ .stray)
    (h : Relaid (scan cs).tokens cs') :
    (scan cs').tokens.map forget = (scan cs).tokens.map forget := by
  have hproper : ∀ t ∈ (scan cs).tokens, t.Proper := fun t ht =>
    ⟨hstray t ht, (scans_scan cs).exists_stretch ht⟩
  obtain ⟨ts', last, hscans, hforget⟩ := h.rereads hproper 1
  rw [scans_iff.mp hscans]
  exact hforget

end Token

/-- Layout does not matter: when no token of a source is stray, a source with the same lexemes laid
out anew has tokens of the same kinds and lexemes, and compiles to the same code and constants or
fails for the same reasons. -/
theorem sameButLines_of_relaid {source source' : Bytes}
    (hstray : ∀ t ∈ (Token.scan (Utf8.decode source)).tokens, t.kind ≠ .stray)
    (h : Token.Relaid (Token.scan (Utf8.decode source)).tokens (Utf8.decode source')) :
    (Token.scan (Utf8.decode source')).tokens.map (fun t => (t.kind, t.lexeme))
        = (Token.scan (Utf8.decode source)).tokens.map (fun t => (t.kind, t.lexeme)) ∧
      SameButLines (compile source') (compile source) := by
  have hforget := Token.scan_of_relaid hstray h
  constructor
  · have hpairs := congrArg (List.map fun t : Token => (t.kind, t.lexeme)) hforget
    rwa [List.map_map, List.map_map] at hpairs
  · exact sameButLines_compile hforget

/-- A program on one line. -/
def oneLine : List Char :=
  "print 1<=2.5;".toList

/-- The lexemes of `oneLine` over several lines, with a comment between them. -/
def overLines : List Char :=
  "\n".toList ++ ("print".toList ++ ("\t// one\n ".toList ++ ("1".toList ++ (" ".toList ++
    ("<=".toList ++ ("\r\n".toList ++ ("2.5".toList ++ (" ".toList ++ (";".toList ++ [])))))))))

/-- The tokens of the one line. -/
theorem tokens_oneLine :
    (Token.scan oneLine).tokens = [⟨.kwPrint, "print".toList, 1⟩, ⟨.number, "1".toList, 1⟩,
      ⟨.lessEqual, "<=".toList, 1⟩, ⟨.number, "2.5".toList, 1⟩, ⟨.semicolon, ";".toList, 1⟩] := by
  decide

/-- The same tokens laid out over several lines, with a comment. -/
theorem relaid_overLines : Token.Relaid (Token.scan oneLine).tokens overLines := by
  have hblank (c : Char) (hc : Token.isBlank c = true) : Token.Separator [c] :=
    ⟨c, [], rfl, hc, .nil⟩
  have hbody : ∀ d ∈ [' ', 'o', 'n', 'e'], d ≠ '\n' := by simp
  have hcomment : Token.Separator "\t// one\n ".toList :=
    ⟨'\t', _, rfl, rfl, .comment hbody (.blank rfl .nil)⟩
  have hfeed : Token.Separator "\r\n".toList :=
    ⟨'\r', ['\n'], rfl, rfl, .blank rfl .nil⟩
  rw [tokens_oneLine]
  exact ⟨"\n".toList, _, rfl, .inr (hblank '\n' rfl), .cons hcomment (.cons (hblank ' ' rfl)
    (.cons hfeed (.cons (hblank ' ' rfl) (.last (.inl rfl)))))⟩

/-- Both layouts are compiled to the same code, up to its lines. -/
theorem sameButLines_of_relaid_overLines :
    Token.Relaid (Token.scan oneLine).tokens overLines ∧
      SameButLines (compile (Utf8.encode overLines)) (compile (Utf8.encode oneLine)) := by
  have hstray : ∀ t ∈ (Token.scan (Utf8.decode (Utf8.encode oneLine))).tokens,
      t.kind ≠ .stray := by
    rw [Utf8.decode_encode, tokens_oneLine]
    decide
  have hrelaid : Token.Relaid (Token.scan (Utf8.decode (Utf8.encode oneLine))).tokens
      (Utf8.decode (Utf8.encode overLines)) := by
    rw [Utf8.decode_encode, Utf8.decode_encode]
    exact relaid_overLines
  exact ⟨relaid_overLines, (sameButLines_of_relaid hstray hrelaid).2⟩

end Lox
