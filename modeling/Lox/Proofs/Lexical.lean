import Lox.Token.Scan
import Mathlib.Data.List.TakeWhile
import Mathlib.Tactic.Common

/-!
# The lexical grammar

`Stretch c more rest kind?` says, without a word on how texts are scanned, that the characters
`c :: more` before the text `rest` are one stretch: a token of some kind, or, if there is none, a
blank or a comment. Stretches are as long as they can be. What this asks of `rest` is written with
`Run`, a run of characters of one class that ends where the class does.

The scanner takes such a stretch (`takes_step`) and no other (`step_of_stretch`), and `scans_iff`
says that a scan cuts the whole text into them: `Scans line cs ts last` is the grammar of texts that
begin on a line and end on another.
-/

namespace Lox.Token

/-! ## Runs of characters -/

/-- A run of characters of a class, before a text that does not go on with another one. -/
structure Run (p : Char → Bool) (run rest : List Char) : Prop where
  all : ∀ d ∈ run, p d = true
  stops : ∀ d ∈ rest.head?, p d = false

namespace Run

variable {p : Char → Bool} {run rest : List Char}

/-- A run is what its class takes off the text. -/
theorem takeWhile_eq (h : Run p run rest) : (run ++ rest).takeWhile p = run := by
  rw [List.takeWhile_append_of_pos h.all]
  cases rest with
  | nil => simp
  | cons d rest =>
    have hd := h.stops d rfl
    simp [hd]

/-- A run may begin one character earlier, if that is of the class. -/
theorem cons {c : Char} (h : Run p run rest) (hc : p c = true) : Run p (c :: run) rest :=
  ⟨List.forall_mem_cons.mpr ⟨hc, h.all⟩, h.stops⟩

end Run

/-- Every text begins with a run of each class, perhaps an empty one. -/
theorem exists_run (p : Char → Bool) (cs : List Char) :
    ∃ run rest, cs = run ++ rest ∧ Run p run rest := by
  refine ⟨cs.takeWhile p, cs.dropWhile p, List.takeWhile_append_dropWhile.symm, ?_, ?_⟩
  · intro d hd
    exact List.mem_takeWhile_imp hd
  · intro d hd
    have hnot := List.head?_dropWhile_not p cs
    rw [Option.mem_def.mp hd] at hnot
    exact hnot

/-! ## Stretches -/

/-- A character within a word. -/
def isWordPart (c : Char) : Bool :=
  isLetter c || isDigit c

/-- The characters that are a token on their own, whatever follows. -/
def singles : List (Char × Kind) :=
  [('(', .leftParen), (')', .rightParen), ('{', .leftBrace), ('}', .rightBrace),
   (';', .semicolon), (',', .comma), ('.', .dot), ('-', .minus), ('+', .plus), ('*', .star)]

/-- The characters that are one token alone, and another before an equals sign. -/
def doubles : List (Char × Kind × Kind) :=
  [('!', .bang, .bangEqual), ('=', .equal, .equalEqual), ('<', .less, .lessEqual),
   ('>', .greater, .greaterEqual)]

/-- A character that begins nothing. -/
structure Foreign (c : Char) : Prop where
  blank : isBlank c = false
  digit : isDigit c = false
  letter : isLetter c = false
  single : c ∉ singles.map Prod.fst
  double : c ∉ doubles.map Prod.fst
  other : c ≠ '/' ∧ c ≠ '"'

/-- The characters `c :: more` before `rest` are a stretch of this kind, or one to be skipped. -/
inductive Stretch : Char → List Char → List Char → Option Kind → Prop where
  | blank {c : Char} {rest : List Char} : isBlank c = true → Stretch c [] rest none
  /-- A comment goes to the end of its line. -/
  | comment {body rest : List Char} : Run (· ≠ '\n') body rest → Stretch '/' ('/' :: body) rest none
  /-- A number without a fraction, which a point alone does not begin. -/
  | whole {c : Char} {ds rest : List Char} : isDigit c = true → Run isDigit ds rest →
      (∀ d more, rest = '.' :: d :: more → isDigit d = false) → Stretch c ds rest (some .number)
  | fraction {c d : Char} {ds es rest : List Char} : isDigit c = true →
      (∀ x ∈ ds, isDigit x = true) → isDigit d = true → Run isDigit es rest →
      Stretch c (ds ++ '.' :: d :: es) rest (some .number)
  | word {c : Char} {more rest : List Char} : isLetter c = true → Run isWordPart more rest →
      Stretch c more rest (some (wordKind (c :: more)))
  | text {body rest : List Char} : (∀ d ∈ body, d ≠ '"') →
      Stretch '"' (body ++ ['"']) rest (some .text)
  | single {c : Char} {kind : Kind} {rest : List Char} : (c, kind) ∈ singles →
      Stretch c [] rest (some kind)
  | slash {rest : List Char} : (∀ d ∈ rest.head?, d ≠ '/') → Stretch '/' [] rest (some .slash)
  | alone {c : Char} {kind withEqual : Kind} {rest : List Char} : (c, kind, withEqual) ∈ doubles →
      (∀ d ∈ rest.head?, d ≠ '=') → Stretch c [] rest (some kind)
  | doubled {c : Char} {alone kind : Kind} {rest : List Char} : (c, alone, kind) ∈ doubles →
      Stretch c ['='] rest (some kind)
  /-- A quote that is never closed is stray, with all that follows. -/
  | unclosed {body : List Char} : (∀ d ∈ body, d ≠ '"') → Stretch '"' body [] (some .stray)
  | foreign {c : Char} {rest : List Char} : Foreign c → Stretch c [] rest (some .stray)

/-! ## What the scanner takes is a stretch -/

section Step

variable {c : Char} {cs : List Char}

/-- The stretch that a step takes off a text. -/
def Takes (c : Char) (cs : List Char) (s : Step) : Prop :=
  ∃ more rest, cs = more ++ rest ∧ s.extra = more.length ∧ Stretch c more rest s.kind?

/-- A digit begins a number, with or without a fraction. -/
theorem takes_number (hc : isDigit c = true) (cs : List Char) :
    Takes c cs (.token .number (numberExtra cs)) := by
  obtain ⟨ds, rest, rfl, hrun⟩ := exists_run isDigit cs
  simp only [numberExtra, hrun.takeWhile_eq, List.drop_left]
  split
  · rename_i d more
    obtain ⟨es, rest, rfl, hrest⟩ := exists_run isDigit more
    by_cases hd : isDigit d = true
    · refine ⟨ds ++ '.' :: d :: es, rest, by simp, ?_, .fraction hc hrun.all hd hrest⟩
      simp only [Step.token, hd, if_true, hrest.takeWhile_eq, List.length_append, List.length_cons]
      omega
    · refine ⟨ds, _, rfl, by simp [Step.token, hd], .whole hc hrun ?_⟩
      intro d' more' heq
      simp only [List.cons.injEq, true_and] at heq
      simpa [heq.1] using hd
  · rename_i hne
    exact ⟨ds, rest, rfl, rfl, .whole hc hrun fun d more heq => absurd heq (hne d more)⟩

/-- A letter begins a word. -/
theorem takes_word (hc : isLetter c = true) (cs : List Char) :
    Takes c cs (.token (wordKind (c :: cs.takeWhile isWordPart))
      (cs.takeWhile isWordPart).length) := by
  obtain ⟨more, rest, rfl, hrun⟩ := exists_run isWordPart cs
  rw [hrun.takeWhile_eq]
  exact ⟨more, rest, rfl, rfl, .word hc hrun⟩

/-- A slash begins a comment if another one follows, and else is a token. -/
theorem takes_slash (cs : List Char) :
    Takes '/' cs (if cs.head? = some '/' then .skip (cs.takeWhile (· ≠ '\n')).length
      else .token .slash 0) := by
  split
  · rename_i hhead
    obtain ⟨tail, rfl⟩ := List.head?_eq_some_iff.mp hhead
    obtain ⟨body, rest, rfl, hrun⟩ := exists_run (· ≠ '\n') tail
    refine ⟨'/' :: body, rest, rfl, ?_, .comment hrun⟩
    exact congrArg List.length (hrun.cons (c := '/') (by decide)).takeWhile_eq
  · rename_i hhead
    refine ⟨[], cs, rfl, rfl, .slash ?_⟩
    rintro d hd rfl
    exact hhead hd

/-- A quote begins a text up to the next quote, or a stray one up to the end. -/
theorem takes_quote (cs : List Char) : Takes '"' cs (quoteStep cs) := by
  obtain ⟨body, rest, rfl, hrun⟩ := exists_run (· ≠ '"') cs
  have hbody : ∀ d ∈ body, d ≠ '"' := fun d hd => of_decide_eq_true (hrun.all d hd)
  rw [quoteStep, hrun.takeWhile_eq, List.drop_left]
  cases rest with
  | nil => exact ⟨body, [], rfl, rfl, .unclosed hbody⟩
  | cons d rest =>
    obtain rfl : d = '"' := by simpa using hrun.stops d rfl
    exact ⟨body ++ ['"'], rest, by simp, by simp [Step.token], .text hbody⟩

/-- A character that may stand before an equals sign is a token with it or without. -/
theorem takes_orEqual {alone withEqual : Kind} (hc : (c, alone, withEqual) ∈ doubles)
    (cs : List Char) : Takes c cs (orEqual alone withEqual cs) := by
  unfold orEqual
  split
  · rename_i hhead
    obtain ⟨rest, rfl⟩ := List.head?_eq_some_iff.mp hhead
    exact ⟨['='], rest, rfl, rfl, .doubled hc⟩
  · rename_i hhead
    refine ⟨[], cs, rfl, rfl, .alone hc ?_⟩
    rintro d hd rfl
    exact hhead hd

/-- A character that is a token on its own takes nothing else. -/
theorem takes_single {kind : Kind} (hc : (c, kind) ∈ singles) (cs : List Char) :
    Takes c cs (.token kind 0) :=
  ⟨[], cs, rfl, rfl, .single hc⟩

/-- Whatever the scanner takes is a stretch. -/
theorem takes_step (c : Char) (cs : List Char) : Takes c cs (step c cs) := by
  unfold step
  by_cases hblank : isBlank c = true
  · rw [if_pos hblank]
    exact ⟨[], cs, rfl, rfl, .blank hblank⟩
  by_cases hdigit : isDigit c = true
  · rw [if_neg hblank, if_pos hdigit]
    exact takes_number hdigit cs
  by_cases hletter : isLetter c = true
  · rw [if_neg hblank, if_neg hdigit, if_pos hletter]
    exact takes_word hletter cs
  rw [if_neg hblank, if_neg hdigit, if_neg hletter]
  split
  · exact takes_slash cs
  iterate 10 exact takes_single (by simp [singles]) cs
  iterate 4 exact takes_orEqual (by simp [doubles]) cs
  · exact takes_quote cs
  · refine ⟨[], cs, rfl, rfl, .foreign ⟨?_, ?_, ?_, ?_, ?_, ?_⟩⟩ <;>
      simp_all [singles, doubles]

/-! ## A stretch is what the scanner takes -/

/-- There are four blank characters. -/
theorem isBlank_eq_true_iff : isBlank c = true ↔ c = ' ' ∨ c = '\t' ∨ c = '\r' ∨ c = '\n' := by
  simp [isBlank, or_assoc]

/-- A blank is not a digit. -/
theorem isDigit_of_isBlank (h : isBlank c = true) : isDigit c = false := by
  rcases isBlank_eq_true_iff.mp h with rfl | rfl | rfl | rfl <;> rfl

/-- A blank is not a letter. -/
theorem isLetter_of_isBlank (h : isBlank c = true) : isLetter c = false := by
  rcases isBlank_eq_true_iff.mp h with rfl | rfl | rfl | rfl <;> rfl

/-- A letter is not a digit. -/
theorem isDigit_of_isLetter (h : isLetter c = true) : isDigit c = false := by
  simp only [isLetter, Bool.or_eq_true, Bool.and_eq_true, decide_eq_true_eq, beq_iff_eq] at h
  rw [Bool.eq_false_iff]
  simp only [isDigit, ne_eq, Bool.and_eq_true, decide_eq_true_eq, not_and]
  intro _ hnine
  rcases h with (⟨ha, -⟩ | ⟨ha, -⟩) | rfl
  · exact absurd (Char.le_trans ha hnine) (by decide)
  · exact absurd (Char.le_trans ha hnine) (by decide)
  · exact absurd hnine (by decide)

/-- At a digit the scanner takes a number. -/
theorem step_of_digit (hc : isDigit c = true) (cs : List Char) :
    step c cs = .token .number (numberExtra cs) := by
  have hblank : isBlank c = false := by
    by_contra h
    rw [isDigit_of_isBlank (Bool.not_eq_false _ ▸ h)] at hc
    cases hc
  simp [step, hblank, hc]

/-- At a letter the scanner takes a word. -/
theorem step_of_letter (hc : isLetter c = true) (cs : List Char) :
    step c cs = .token (wordKind (c :: cs.takeWhile isWordPart))
      (cs.takeWhile isWordPart).length := by
  have hblank : isBlank c = false := by
    by_contra h
    rw [isLetter_of_isBlank (Bool.not_eq_false _ ▸ h)] at hc
    cases hc
  simp only [step, hblank, isDigit_of_isLetter hc, hc]
  rfl

/-- A number without a fraction ends with its run of digits. -/
theorem numberExtra_of_whole {ds rest : List Char} (h : Run isDigit ds rest)
    (hrest : ∀ d more, rest = '.' :: d :: more → isDigit d = false) :
    numberExtra (ds ++ rest) = ds.length := by
  simp only [numberExtra, h.takeWhile_eq, List.drop_left]
  split
  · rename_i d more
    rw [hrest d more rfl]
    rfl
  · rfl

/-- A number with a fraction ends with the run of digits after the point. -/
theorem numberExtra_of_fraction {d : Char} {ds es rest : List Char}
    (hds : ∀ x ∈ ds, isDigit x = true) (hd : isDigit d = true) (hes : Run isDigit es rest) :
    numberExtra ((ds ++ '.' :: d :: es) ++ rest) = (ds ++ '.' :: d :: es).length := by
  have hwhole : Run isDigit ds ('.' :: d :: (es ++ rest)) := by
    refine ⟨hds, ?_⟩
    rintro x hx
    obtain rfl : '.' = x := by simpa using hx
    rfl
  rw [List.append_assoc, List.cons_append, List.cons_append]
  simp only [numberExtra, hwhole.takeWhile_eq, List.drop_left, hd, if_true, hes.takeWhile_eq,
    List.length_append, List.length_cons]
  omega

/-- A stretch is what the scanner takes. -/
theorem step_of_stretch {more rest : List Char} {kind? : Option Kind}
    (h : Stretch c more rest kind?) : step c (more ++ rest) = ⟨kind?, more.length⟩ := by
  cases h with
  | blank hc => simp [step, hc, Step.skip]
  | comment hrun =>
    have hskip := congrArg List.length (hrun.cons (c := '/') (by decide)).takeWhile_eq
    exact congrArg Step.skip hskip
  | whole hc hrun hrest => rw [step_of_digit hc, numberExtra_of_whole hrun hrest, Step.token]
  | fraction hc hds hd hes => rw [step_of_digit hc, numberExtra_of_fraction hds hd hes, Step.token]
  | word hc hrun => rw [step_of_letter hc, hrun.takeWhile_eq, Step.token]
  | @text body rest hbody =>
    have hrun : Run (· ≠ '"') body ('"' :: rest) :=
      ⟨fun d hd => decide_eq_true (hbody d hd), by simp⟩
    have hstep : step '"' (body ++ ['"'] ++ rest) = quoteStep (body ++ '"' :: rest) := by
      rw [List.append_assoc]
      rfl
    rw [hstep, quoteStep, hrun.takeWhile_eq, List.drop_left]
    simp [Step.token]
  | single hc =>
    simp only [singles, List.mem_cons, Prod.mk.injEq, List.not_mem_nil, or_false] at hc
    rcases hc with ⟨rfl, rfl⟩ | ⟨rfl, rfl⟩ | ⟨rfl, rfl⟩ | ⟨rfl, rfl⟩ | ⟨rfl, rfl⟩ | ⟨rfl, rfl⟩ |
      ⟨rfl, rfl⟩ | ⟨rfl, rfl⟩ | ⟨rfl, rfl⟩ | ⟨rfl, rfl⟩ <;> rfl
  | slash hrest =>
    have hhead : rest.head? ≠ some '/' := fun hd => hrest '/' hd rfl
    exact if_neg hhead
  | alone hc hrest =>
    have hhead : rest.head? ≠ some '=' := fun hd => hrest '=' hd rfl
    simp only [doubles, List.mem_cons, Prod.mk.injEq, List.not_mem_nil, or_false] at hc
    rcases hc with ⟨rfl, rfl, rfl⟩ | ⟨rfl, rfl, rfl⟩ | ⟨rfl, rfl, rfl⟩ | ⟨rfl, rfl, rfl⟩ <;>
      exact if_neg hhead
  | doubled hc =>
    simp only [doubles, List.mem_cons, Prod.mk.injEq, List.not_mem_nil, or_false] at hc
    rcases hc with ⟨rfl, rfl, rfl⟩ | ⟨rfl, rfl, rfl⟩ | ⟨rfl, rfl, rfl⟩ | ⟨rfl, rfl, rfl⟩ <;> rfl
  | unclosed hbody =>
    have hrun : Run (· ≠ '"') more [] := ⟨fun d hd => decide_eq_true (hbody d hd), by simp⟩
    have hstep : step '"' (more ++ []) = quoteStep (more ++ []) := rfl
    rw [hstep, quoteStep, hrun.takeWhile_eq, List.drop_left]
    rfl
  | foreign hc =>
    unfold step
    rw [if_neg (by simp [hc.blank]), if_neg (by simp [hc.digit]), if_neg (by simp [hc.letter])]
    have hsingle := hc.single
    have hdouble := hc.double
    have hother := hc.other
    split <;> simp_all [singles, doubles, Step.token]

end Step

/-! ## Texts -/

/-- A text that begins on a line is cut into these tokens and what is skipped between them, and ends
on the line `last`. -/
inductive Scans : Nat → List Char → List Token → Nat → Prop where
  | done {line : Nat} : Scans line [] [] line
  | skip {line last : Nat} {c : Char} {more rest : List Char} {ts : List Token} :
      Stretch c more rest none → Scans (line + (c :: more).count '\n') rest ts last →
      Scans line (c :: (more ++ rest)) ts last
  | token {line last : Nat} {kind : Kind} {c : Char} {more rest : List Char} {ts : List Token} :
      Stretch c more rest (some kind) → Scans (line + (c :: more).count '\n') rest ts last →
      Scans line (c :: (more ++ rest)) (⟨kind, c :: more, line⟩ :: ts) last

/-- Characters that belong to a stretch already are passed over. -/
theorem scanFrom_skip (more rest : List Char) (line : Nat) (seen : List Token) :
    scanFrom more.length (more ++ rest) line seen = scanFrom 0 rest line seen := by
  induction more with
  | nil => rfl
  | cons c more ih => exact ih

/-- A stretch is taken off at once, with its token if it is one, and its line feeds are counted. -/
theorem scanFrom_of_stretch {c : Char} {more rest : List Char} {kind? : Option Kind}
    (h : Stretch c more rest kind?) (line : Nat) (seen : List Token) :
    scanFrom 0 (c :: (more ++ rest)) line seen =
      scanFrom 0 rest (line + (c :: more).count '\n')
        (kind?.elim seen fun kind => ⟨kind, c :: more, line⟩ :: seen) := by
  rw [scanFrom, step_of_stretch h]
  cases kind? <;> simp only [List.take_left, scanFrom_skip, Option.elim]

/-- A text that is cut into tokens is scanned so. -/
theorem Scans.scanFrom_eq {line last : Nat} {cs : List Char} {ts : List Token}
    (h : Scans line cs ts last) (seen : List Token) :
    scanFrom 0 cs line seen = ⟨seen.reverse ++ ts, last⟩ := by
  induction h generalizing seen with
  | done => simp [scanFrom]
  | skip hstretch _ ih => rw [scanFrom_of_stretch hstretch, ih, Option.elim]
  | token hstretch _ ih =>
    rw [scanFrom_of_stretch hstretch, ih, Option.elim, List.reverse_cons, List.append_assoc]
    rfl

/-- Every text can be cut. -/
theorem exists_scans (line : Nat) (cs : List Char) : ∃ ts last, Scans line cs ts last := by
  induction hn : cs.length using Nat.strongRecOn generalizing line cs with
  | _ n ih =>
    cases cs with
    | nil => exact ⟨[], line, .done⟩
    | cons c cs =>
      obtain ⟨more, rest, rfl, -, hstretch⟩ := takes_step c cs
      have hlt : rest.length < n := by
        simp only [List.length_cons, List.length_append] at hn
        omega
      obtain ⟨ts, last, hrest⟩ := ih rest.length hlt (line + (c :: more).count '\n') rest rfl
      cases hkind : (step c (more ++ rest)).kind? with
      | none => exact ⟨ts, last, .skip (hkind ▸ hstretch) hrest⟩
      | some kind => exact ⟨_, last, .token (hkind ▸ hstretch) hrest⟩

/-- A scan cuts the text as the lexical grammar has it, and in no other way. -/
theorem scans_iff {cs : List Char} {ts : List Token} {last : Nat} :
    Scans 1 cs ts last ↔ scan cs = ⟨ts, last⟩ := by
  constructor
  · intro h
    exact h.scanFrom_eq []
  · intro h
    obtain ⟨ts', last', hscans⟩ := exists_scans 1 cs
    obtain ⟨rfl, rfl⟩ := Scanned.mk.inj ((hscans.scanFrom_eq []).symm.trans h)
    exact hscans

/-- The scan of a text cuts it as the lexical grammar has it. -/
theorem scans_scan (cs : List Char) : Scans 1 cs (scan cs).tokens (scan cs).endLine :=
  scans_iff.mpr rfl

/-! ## Tokens within their text -/

section Bounds

variable {line last : Nat} {cs : List Char} {ts : List Token}

/-- The line on which a text ends is told by its line feeds. -/
theorem Scans.last_eq (h : Scans line cs ts last) : last = line + cs.count '\n' := by
  induction h with
  | done => rfl
  | skip _ _ ih | token _ _ ih =>
    rw [ih, Nat.add_assoc, ← List.count_append]
    rfl

/-- No token begins beyond the line on which the text ends. -/
theorem Scans.line_le (h : Scans line cs ts last) : ∀ t ∈ ts, t.line ≤ last := by
  induction h with
  | done => exact List.forall_mem_nil _
  | skip _ _ ih => exact ih
  | @token line last kind c more rest ts _ hrest ih =>
    have hlast : line ≤ last := by
      rw [hrest.last_eq, Nat.add_assoc]
      exact Nat.le_add_right ..
    exact List.forall_mem_cons.mpr ⟨hlast, ih⟩

/-- No token begins before the line on which the text begins. -/
theorem Scans.le_line (h : Scans line cs ts last) : ∀ t ∈ ts, line ≤ t.line := by
  induction h with
  | done => exact List.forall_mem_nil _
  | skip _ _ ih => exact fun t ht => Nat.le_trans (Nat.le_add_right ..) (ih t ht)
  | token _ _ ih =>
    refine List.forall_mem_cons.mpr ⟨Nat.le_refl _, ?_⟩
    exact fun t ht => Nat.le_trans (Nat.le_add_right ..) (ih t ht)

/-- No lexeme is longer than the text. -/
theorem Scans.length_lexeme_le (h : Scans line cs ts last) :
    ∀ t ∈ ts, t.lexeme.length ≤ cs.length := by
  induction h with
  | done => exact List.forall_mem_nil _
  | skip _ _ ih =>
    intro t ht
    have hle := ih t ht
    rw [List.length_cons, List.length_append]
    omega
  | token _ _ ih =>
    refine List.forall_mem_cons.mpr ⟨?_, fun t ht => ?_⟩
    · rw [List.length_cons, List.length_cons, List.length_append]
      omega
    · have hle := ih t ht
      rw [List.length_cons, List.length_append]
      omega

/-- There are no more tokens than characters. -/
theorem Scans.length_le (h : Scans line cs ts last) : ts.length ≤ cs.length := by
  induction h with
  | done => exact Nat.le_refl 0
  | skip _ _ ih | token _ _ ih =>
    simp only [List.length_cons, List.length_append]
    omega

end Bounds

end Lox.Token
