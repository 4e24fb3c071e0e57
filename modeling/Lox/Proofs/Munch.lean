import Lox.Proofs.Coverage

/-!
# The longest lexeme

Here the lexical grammar is written down as a list of classes: for each kind of token the texts that
are one (`Lexeme`), whatever stands after them, and comments (`Comment`). What a scanner does is
then one rule. Of all lexemes and comments at the front of what is left it takes the longest; where
there is none it takes a character, or all that is left after a quote, and calls that stray.

* `length_le_of_lexical`: the scanner takes no less than any lexeme or comment at the front.
* `Stretch.lexeme`: what it takes is a lexeme of the kind that it says.
* `Munched` says what follows for each kind of token, and `scanner_munches` that this holds of every
  token that a scanner answers with.
-/

namespace Lox.Token

/-! ## The classes -/

/-- One digit or more. -/
def IsDigits (cs : List Char) : Prop :=
  cs ≠ [] ∧ ∀ d ∈ cs, isDigit d = true

/-- Digits, perhaps with a point and more digits after them. -/
inductive Numeral : List Char → Prop where
  | whole {ds : List Char} : IsDigits ds → Numeral ds
  | fraction {ds es : List Char} : IsDigits ds → IsDigits es → Numeral (ds ++ '.' :: es)

/-- A letter, and then letters and digits. -/
def IsWord : List Char → Prop
  | [] => False
  | c :: more => isLetter c = true ∧ ∀ d ∈ more, isWordPart d = true

instance : DecidablePred IsWord
  | [] => inferInstanceAs (Decidable False)
  | c :: more =>
    decidable_of_iff (isLetter c = true ∧ more.all isWordPart = true)
      (and_congr Iff.rfl List.all_eq_true)

/-- The keywords, as they are spelled. -/
def spellings : List (List Char) :=
  keywords.map fun entry => entry.1.toList

/-- The operators and the marks of punctuation, with their kinds. -/
def operators : List (String × Kind) :=
  [("(", .leftParen), (")", .rightParen), ("\x7b", .leftBrace), ("\x7d", .rightBrace),
   (",", .comma), (".", .dot), ("-", .minus), ("+", .plus), (";", .semicolon), ("/", .slash),
   ("*", .star),
   ("!", .bang), ("!=", .bangEqual), ("=", .equal), ("==", .equalEqual), (">", .greater),
   (">=", .greaterEqual), ("<", .less), ("<=", .lessEqual)]

/-- The text is an operator. -/
def IsOperator (cs : List Char) : Prop :=
  ∃ entry ∈ operators, entry.1.toList = cs

/-- The text is a token of a kind. -/
inductive Lexeme : Kind → List Char → Prop where
  | number {cs : List Char} : Numeral cs → Lexeme .number cs
  | keyword {word : String} {kind : Kind} : (word, kind) ∈ keywords → Lexeme kind word.toList
  | identifier {cs : List Char} : IsWord cs → cs ∉ spellings → Lexeme .identifier cs
  | text {body : List Char} : '"' ∉ body → Lexeme .text ('"' :: (body ++ ['"']))
  | operator {word : String} {kind : Kind} : (word, kind) ∈ operators → Lexeme kind word.toList

/-- The text is a comment, or the beginning of one. -/
inductive Comment : List Char → Prop where
  | mk {body : List Char} : '\n' ∉ body → Comment ('/' :: '/' :: body)

/-- The text is a token of some kind, or a comment. -/
def Lexical (cs : List Char) : Prop :=
  Comment cs ∨ ∃ kind, Lexeme kind cs

/-- Before `rest` stands the longest text of a class that there is at that point. -/
structure Longest (P : List Char → Prop) (front rest : List Char) : Prop where
  holds : P front
  length_le : ∀ other, other <+: front ++ rest → P other → other.length ≤ front.length

/-- What is stray before `rest`: a quote that is never closed, with all that follows, or a character
with which no token begins. -/
inductive Stray : List Char → List Char → Prop where
  | unclosed {body : List Char} : '"' ∉ body → Stray ('"' :: body) []
  | foreign {c : Char} {rest : List Char} :
      (∀ kind cs, Lexeme kind cs → cs.head? ≠ some c) → Stray [c] rest

/-! ## The scanner takes no less -/

section Lengths

variable {p : Char → Bool} {c : Char} {cs more rest : List Char}

/-- A text that begins with characters of a class has a run of it that is no shorter. -/
theorem length_le_takeWhile (hmore : ∀ d ∈ more, p d = true) (h : more <+: cs) :
    more.length ≤ (cs.takeWhile p).length := by
  obtain ⟨rest, rfl⟩ := h
  rw [List.takeWhile_append_of_pos hmore, List.length_append]
  exact Nat.le_add_right ..

/-- A number has at least the run of digits it begins with. -/
theorem length_takeWhile_le_numberExtra (cs : List Char) :
    (cs.takeWhile isDigit).length ≤ numberExtra cs := by
  simp only [numberExtra]
  split
  · split <;> omega
  · exact Nat.le_refl _

/-- No numeral at the front of a text is longer than what the scanner takes at a digit. -/
theorem length_le_of_numeral (h : Numeral more) (hfront : more <+: c :: cs) :
    isDigit c = true ∧ more.length ≤ numberExtra cs + 1 := by
  rcases h with ⟨hne, hds⟩ | ⟨⟨hne, hds⟩, hne', hes⟩
  · obtain ⟨d, ds, rfl⟩ := List.exists_cons_of_ne_nil hne
    obtain ⟨rfl, hrest⟩ := List.cons_prefix_cons.mp hfront
    obtain ⟨hd, hds⟩ := List.forall_mem_cons.mp hds
    have hrun := length_le_takeWhile hds hrest
    have hextra := length_takeWhile_le_numberExtra cs
    refine ⟨hd, ?_⟩
    rw [List.length_cons]
    omega
  · rename_i es
    obtain ⟨d, ds, rfl⟩ := List.exists_cons_of_ne_nil hne
    obtain ⟨e, es, rfl⟩ := List.exists_cons_of_ne_nil hne'
    rw [List.cons_append] at hfront
    obtain ⟨rfl, rest, rfl⟩ := List.cons_prefix_cons.mp hfront
    obtain ⟨hd, hds⟩ := List.forall_mem_cons.mp hds
    obtain ⟨he, hes⟩ := List.forall_mem_cons.mp hes
    -- the digits after the point may go on
    obtain ⟨run, rest, rfl, hrun⟩ := exists_run isDigit rest
    have hmore : Run isDigit (es ++ run) rest :=
      ⟨List.forall_mem_append.mpr ⟨hes, hrun.all⟩, hrun.stops⟩
    have hextra := numberExtra_of_fraction hds he hmore
    have hsame : ds ++ '.' :: e :: es ++ (run ++ rest) = ds ++ '.' :: e :: (es ++ run) ++ rest := by
      simp
    refine ⟨hd, ?_⟩
    rw [hsame, hextra]
    simp only [List.length_append, List.length_cons]
    omega

/-- No word at the front of a text is longer than what the scanner takes at a letter. -/
theorem length_le_of_isWord (h : IsWord more) (hfront : more <+: c :: cs) :
    isLetter c = true ∧ more.length ≤ (cs.takeWhile isWordPart).length + 1 := by
  rcases more with _ | ⟨d, more⟩
  · exact h.elim
  · obtain ⟨rfl, hrest⟩ := List.cons_prefix_cons.mp hfront
    exact ⟨h.1, Nat.succ_le_succ (length_le_takeWhile h.2 hrest)⟩

/-- Keywords are words. -/
theorem isWord_of_keyword : ∀ entry ∈ keywords, IsWord entry.1.toList := by
  decide

/-- An operator has one character, or it is one of those that an equals sign makes longer. -/
theorem operator_cases : ∀ entry ∈ operators, entry.1.toList.length = 1 ∨
    ∃ double ∈ doubles, entry.1.toList = [double.1, '='] := by
  decide

/-- No operator at the front of a text is longer than what the scanner takes. -/
theorem length_le_of_operator (h : IsOperator more) (hfront : more <+: c :: cs) :
    more.length ≤ (step c cs).extra + 1 := by
  obtain ⟨entry, hentry, rfl⟩ := h
  rcases operator_cases entry hentry with hone | ⟨⟨d, alone, kind⟩, hdouble, hspelled⟩
  · rw [hone]
    exact Nat.le_add_left ..
  · rw [hspelled] at hfront ⊢
    obtain ⟨rfl, rest, rfl⟩ := List.cons_prefix_cons.mp hfront
    have hstretch : Stretch d ['='] rest (some kind) := .doubled hdouble
    rw [step_of_stretch hstretch]
    exact Nat.le_refl 2

/-- No comment at the front of a text is longer than what the scanner takes. -/
theorem length_le_of_comment (h : Comment more) (hfront : more <+: c :: cs) :
    more.length ≤ (step c cs).extra + 1 := by
  rcases h with ⟨hbody⟩
  rename_i body
  obtain ⟨rfl, rest, rfl⟩ := List.cons_prefix_cons.mp hfront
  -- a comment goes on to the end of its line
  obtain ⟨run, rest, rfl, hrun⟩ := exists_run (· ≠ '\n') rest
  have hbody' : ∀ d ∈ body, decide (d ≠ '\n') = true := by
    intro d hd
    refine decide_eq_true ?_
    rintro rfl
    exact hbody hd
  have hstretch : Stretch '/' ('/' :: (body ++ run)) rest none :=
    .comment ⟨List.forall_mem_append.mpr ⟨hbody', hrun.all⟩, hrun.stops⟩
  have hsame : '/' :: body ++ (run ++ rest) = '/' :: (body ++ run) ++ rest := by simp
  rw [hsame, step_of_stretch hstretch]
  simp only [List.length_cons, List.length_append]
  omega

/-- The scanner takes no less than any lexeme or comment at the front of a text. -/
theorem length_le_of_lexical (h : Lexical more) (hfront : more <+: c :: cs) :
    more.length ≤ (step c cs).extra + 1 := by
  have hword : IsWord more → more.length ≤ (step c cs).extra + 1 := by
    intro hmore
    obtain ⟨hc, hle⟩ := length_le_of_isWord hmore hfront
    rw [step_of_letter hc]
    exact hle
  rcases h with hcomment | ⟨kind, hlexeme⟩
  · exact length_le_of_comment hcomment hfront
  · cases hlexeme with
    | number hmore =>
      obtain ⟨hc, hle⟩ := length_le_of_numeral hmore hfront
      rw [step_of_digit hc]
      exact hle
    | keyword hmem => exact hword (isWord_of_keyword _ hmem)
    | identifier hmore _ => exact hword hmore
    | @text body hbody =>
      obtain ⟨rfl, rest, rfl⟩ := List.cons_prefix_cons.mp hfront
      have hstretch : Stretch '"' (body ++ ['"']) rest (some .text) :=
        .text fun d hd heq => hbody (heq ▸ hd)
      rw [step_of_stretch hstretch]
      exact Nat.le_refl _
    | operator hmem => exact length_le_of_operator ⟨_, hmem, rfl⟩ hfront

end Lengths

/-! ## What the scanner takes -/

section Stretches

variable {c : Char} {more rest cs : List Char} {kind : Kind}

/-- A character that is a token on its own is an operator of the same kind. -/
theorem operator_of_single : ∀ entry ∈ singles,
    ∃ op ∈ operators, op.1.toList = [entry.1] ∧ op.2 = entry.2 := by
  decide

/-- A character that may stand before an equals sign is an operator with it and without, of the same
kinds. -/
theorem operator_of_double : ∀ entry ∈ doubles,
    (∃ op ∈ operators, op.1.toList = [entry.1] ∧ op.2 = entry.2.1) ∧
      ∃ op ∈ operators, op.1.toList = [entry.1, '='] ∧ op.2 = entry.2.2 := by
  decide

/-- An operator is a lexeme of its kind. -/
theorem lexeme_of_operator (h : ∃ op ∈ operators, op.1.toList = cs ∧ op.2 = kind) :
    Lexeme kind cs := by
  obtain ⟨op, hmem, rfl, rfl⟩ := h
  exact .operator hmem

/-- A word is a lexeme of the kind that the scanner gives it. -/
theorem lexeme_of_word (h : IsWord cs) : Lexeme (wordKind cs) cs := by
  unfold wordKind
  split
  · rename_i word kind hfind
    have hspelled := List.find?_some hfind
    rw [← of_decide_eq_true hspelled]
    exact .keyword (List.mem_of_find?_eq_some hfind)
  · rename_i hfind
    refine .identifier h ?_
    intro hmem
    obtain ⟨entry, hentry, hspelled⟩ := List.mem_map.mp hmem
    exact List.find?_eq_none.mp hfind entry hentry (decide_eq_true hspelled)

/-- A stretch that is not stray is a lexeme of its kind. -/
theorem Stretch.lexeme (h : Stretch c more rest (some kind)) (hstray : kind ≠ .stray) :
    Lexeme kind (c :: more) := by
  cases h with
  | whole hc hrun _ =>
    exact .number (.whole ⟨List.cons_ne_nil _ _, List.forall_mem_cons.mpr ⟨hc, hrun.all⟩⟩)
  | fraction hc hds hd hrun =>
    rw [← List.cons_append]
    exact .number (.fraction ⟨List.cons_ne_nil _ _, List.forall_mem_cons.mpr ⟨hc, hds⟩⟩
      ⟨List.cons_ne_nil _ _, List.forall_mem_cons.mpr ⟨hd, hrun.all⟩⟩)
  | word hc hrun => exact lexeme_of_word ⟨hc, hrun.all⟩
  | text hbody => exact .text fun hmem => hbody _ hmem rfl
  | single hc => exact lexeme_of_operator (operator_of_single _ hc)
  | slash _ => exact lexeme_of_operator (by decide)
  | alone hc _ => exact lexeme_of_operator (operator_of_double _ hc).1
  | doubled hc => exact lexeme_of_operator (operator_of_double _ hc).2
  | unclosed _ => exact absurd rfl hstray
  | foreign _ => exact absurd rfl hstray

/-- No stretch can be replaced by a longer lexeme. -/
theorem Stretch.length_le {kind? : Option Kind} (h : Stretch c more rest kind?) (other : List Char)
    (hfront : other <+: c :: more ++ rest) (hother : Lexical other) :
    other.length ≤ (c :: more).length := by
  rw [List.cons_append] at hfront
  have hle := length_le_of_lexical hother hfront
  rw [step_of_stretch h] at hle
  exact hle

/-- The characters with which an operator begins. -/
theorem head_of_operator : ∀ entry ∈ operators, entry.1.toList.head? ∈
    (singles.map Prod.fst ++ (doubles.map Prod.fst ++ ['/'])).map some := by
  decide

/-- A numeral begins with a digit. -/
theorem isDigit_of_numeral (h : Numeral cs) : ∃ c more, cs = c :: more ∧ isDigit c = true := by
  rcases h with ⟨hne, hds⟩ | ⟨⟨hne, hds⟩, -⟩
  all_goals
    obtain ⟨d, ds, rfl⟩ := List.exists_cons_of_ne_nil hne
    exact ⟨d, _, rfl, hds d List.mem_cons_self⟩

/-- With a character that is foreign no token begins. -/
theorem head_ne_of_foreign (hc : Foreign c) (kind : Kind) (cs : List Char) (h : Lexeme kind cs) :
    cs.head? ≠ some c := by
  have hword : IsWord cs → cs.head? ≠ some c := by
    intro hcs hhead
    obtain ⟨more, rfl⟩ := List.head?_eq_some_iff.mp hhead
    exact absurd hcs.1 (by rw [hc.letter]; exact Bool.false_ne_true)
  intro hhead
  cases h with
  | number hcs =>
    obtain ⟨d, more, rfl, hd⟩ := isDigit_of_numeral hcs
    obtain rfl : d = c := Option.some.inj hhead
    exact absurd hd (by rw [hc.digit]; exact Bool.false_ne_true)
  | keyword hmem => exact hword (isWord_of_keyword _ hmem) hhead
  | identifier hcs _ => exact hword hcs hhead
  | text _ => exact hc.other.2 (Option.some.inj hhead).symm
  | operator hmem =>
    have hfirst := head_of_operator _ hmem
    rw [hhead] at hfirst
    obtain ⟨d, hd, hsome⟩ := List.mem_map.mp hfirst
    obtain rfl : d = c := Option.some.inj hsome
    rw [List.mem_append, List.mem_append, List.mem_singleton] at hd
    rcases hd with hsingle | hdouble | hslash
    · exact hc.single hsingle
    · exact hc.double hdouble
    · exact hc.other.1 hslash

/-- A stretch that is stray is a quote that is never closed, or begins no token. -/
theorem Stretch.stray (h : Stretch c more rest (some kind)) (hstray : kind = .stray) :
    Stray (c :: more) rest := by
  have hsingles : ∀ entry ∈ singles, entry.2 ≠ .stray := by decide
  have hdoubles : ∀ entry ∈ doubles, entry.2.1 ≠ .stray ∧ entry.2.2 ≠ .stray := by decide
  cases h with
  | unclosed hbody => exact .unclosed fun hmem => hbody _ hmem rfl
  | foreign hc => exact .foreign (head_ne_of_foreign hc)
  | word _ _ => exact absurd hstray (wordKind_ne (by decide) _)
  | single hc => exact absurd hstray (hsingles _ hc)
  | alone hc _ => exact absurd hstray (hdoubles _ hc).1
  | doubled hc => exact absurd hstray (hdoubles _ hc).2
  | whole _ _ _ | fraction _ _ _ _ | text _ | slash _ => cases hstray

end Stretches

/-! ## Token by token -/

/-- What holds of a token with `rest` after it. -/
structure Munched (t : Token) (rest : List Char) : Prop where
  /-- A token that is not stray is a lexeme of its kind, and there is no longer lexeme or comment in
  its place. -/
  lexeme : t.kind ≠ .stray → Lexeme t.kind t.lexeme ∧ Longest Lexical t.lexeme rest
  /-- A number is as long as it can be. -/
  number : t.kind = .number → Longest Numeral t.lexeme rest
  /-- A word is as long as it can be. -/
  word : IsWord t.lexeme → Longest IsWord t.lexeme rest
  /-- A token is a keyword just when it is spelled like that, from end to end. -/
  keyword : ∀ entry ∈ keywords, t.kind = entry.2 ↔ t.lexeme = entry.1.toList
  /-- All other words are identifiers. -/
  identifier : t.kind = .identifier ↔ IsWord t.lexeme ∧ t.lexeme ∉ spellings
  /-- A text goes from a quote to the next one. -/
  text : t.kind = .text → ∃ body, '"' ∉ body ∧ t.lexeme = '"' :: (body ++ ['"'])
  /-- An operator is as long as it can be. -/
  operator : t.kind ∈ operators.map Prod.snd → Longest IsOperator t.lexeme rest
  /-- A slash is not followed by another one. -/
  slash : t.kind = .slash → rest.head? ≠ some '/'
  /-- Only a quote that is never closed is stray, and a character with which no token begins. -/
  stray : t.kind = .stray → Stray t.lexeme rest

section Kinds

variable {kind : Kind} {cs rest : List Char}

/-- What is longest among all lexemes and comments is longest in each class of them. -/
theorem Longest.mono {P Q : List Char → Prop} (h : Longest P cs rest) (hQ : Q cs)
    (hP : ∀ other, Q other → P other) : Longest Q cs rest :=
  ⟨hQ, fun other hfront hother => h.length_le other hfront (hP other hother)⟩

/-- A word is a lexeme, of one kind or another. -/
theorem lexical_of_word (h : IsWord cs) : Lexical cs :=
  .inr ⟨_, lexeme_of_word h⟩

/-- What is stray is not a word. -/
theorem not_isWord_of_stray (h : Stray cs rest) : ¬ IsWord cs := by
  intro hword
  rcases h with _ | hnone
  · exact absurd hword.1 (by decide)
  · exact hnone _ _ (lexeme_of_word hword) rfl

/-- The kinds of keywords are not those of other tokens. -/
theorem kind_of_keyword : ∀ entry ∈ keywords, entry.2 ≠ .number ∧ entry.2 ≠ .identifier ∧
    entry.2 ≠ .text ∧ entry.2 ≠ .stray ∧ entry.2 ∉ operators.map Prod.snd := by
  decide

/-- The kinds of operators are not those of other tokens. -/
theorem kind_of_operator : ∀ entry ∈ operators, entry.2 ≠ .number ∧ entry.2 ≠ .identifier ∧
    entry.2 ≠ .text ∧ entry.2 ≠ .stray ∧ entry.2 ∉ keywords.map Prod.snd := by
  decide

/-- Keywords differ in their kinds, and in their spellings. -/
theorem keyword_injective : ∀ entry ∈ keywords, ∀ other ∈ keywords,
    entry.2 = other.2 ∨ entry.1.toList = other.1.toList → entry = other := by
  decide

/-- A lexeme that is a number is a numeral. -/
theorem Lexeme.numeral (h : Lexeme kind cs) (hkind : kind = .number) : Numeral cs := by
  cases h with
  | number hcs => exact hcs
  | keyword hmem => exact absurd hkind (kind_of_keyword _ hmem).1
  | operator hmem => exact absurd hkind (kind_of_operator _ hmem).1
  | identifier _ _ | text _ => cases hkind

/-- A lexeme that is a text stands between quotes, and has no other. -/
theorem Lexeme.quoted (h : Lexeme kind cs) (hkind : kind = .text) :
    ∃ body, '"' ∉ body ∧ cs = '"' :: (body ++ ['"']) := by
  cases h with
  | @text body hbody => exact ⟨body, hbody, rfl⟩
  | keyword hmem => exact absurd hkind (kind_of_keyword _ hmem).2.2.1
  | operator hmem => exact absurd hkind (kind_of_operator _ hmem).2.2.1
  | number _ | identifier _ _ => cases hkind

/-- A lexeme that is an identifier is a word and no keyword. -/
theorem Lexeme.name (h : Lexeme kind cs) (hkind : kind = .identifier) :
    IsWord cs ∧ cs ∉ spellings := by
  cases h with
  | identifier hcs hnone => exact ⟨hcs, hnone⟩
  | keyword hmem => exact absurd hkind (kind_of_keyword _ hmem).2.1
  | operator hmem => exact absurd hkind (kind_of_operator _ hmem).2.1
  | number _ | text _ => cases hkind

/-- A lexeme of the kind of an operator is an operator. -/
theorem Lexeme.isOperator (h : Lexeme kind cs) (hkind : kind ∈ operators.map Prod.snd) :
    IsOperator cs := by
  cases h with
  | operator hmem => exact ⟨_, hmem, rfl⟩
  | keyword hmem => exact absurd hkind (kind_of_keyword _ hmem).2.2.2.2
  | number _ | identifier _ _ | text _ => exact absurd hkind (by decide)

/-- A lexeme of the kind of a keyword is spelled like it. -/
theorem Lexeme.spelled (h : Lexeme kind cs) {entry : String × Kind} (hentry : entry ∈ keywords)
    (hkind : kind = entry.2) : cs = entry.1.toList := by
  cases h with
  | keyword hmem => rw [← keyword_injective _ hmem _ hentry (.inl hkind)]
  | operator hmem =>
    exact absurd (List.mem_map.mpr ⟨entry, hentry, hkind.symm⟩) (kind_of_operator _ hmem).2.2.2.2
  | number _ => exact absurd hkind.symm (kind_of_keyword _ hentry).1
  | identifier _ _ => exact absurd hkind.symm (kind_of_keyword _ hentry).2.1
  | text _ => exact absurd hkind.symm (kind_of_keyword _ hentry).2.2.1

/-- A word is a keyword if it is spelled like one, and else an identifier. -/
theorem Lexeme.kind_of_word (h : Lexeme kind cs) (hcs : IsWord cs) :
    (∃ word, (word, kind) ∈ keywords ∧ word.toList = cs) ∨
      kind = .identifier ∧ cs ∉ spellings := by
  have hoperators : ∀ entry ∈ operators, ¬ IsWord entry.1.toList := by decide
  cases h with
  | keyword hmem => exact .inl ⟨_, hmem, rfl⟩
  | identifier _ hnone => exact .inr ⟨rfl, hnone⟩
  | number hnumeral =>
    obtain ⟨c, more, rfl, hc⟩ := isDigit_of_numeral hnumeral
    rw [isDigit_of_isLetter hcs.1] at hc
    cases hc
  | text _ => exact absurd hcs.1 (by decide)
  | operator hmem => exact absurd hcs (hoperators _ hmem)

/-- No lexeme is stray. -/
theorem Lexeme.ne_stray (h : Lexeme kind cs) : kind ≠ .stray := by
  cases h with
  | keyword hmem => exact (kind_of_keyword _ hmem).2.2.2.1
  | operator hmem => exact (kind_of_operator _ hmem).2.2.2.1
  | number _ | identifier _ _ | text _ => decide

/-- A lexeme is a keyword just when it is spelled like that, from end to end. -/
theorem Lexeme.keyword_iff (h : Lexeme kind cs) {entry : String × Kind}
    (hentry : entry ∈ keywords) : kind = entry.2 ↔ cs = entry.1.toList := by
  constructor
  · exact h.spelled hentry
  · intro hspelled
    have hcs : IsWord cs := hspelled ▸ isWord_of_keyword entry hentry
    rcases h.kind_of_word hcs with ⟨word, hmem, heq⟩ | ⟨-, hnone⟩
    · rw [← keyword_injective _ hmem _ hentry (.inr (heq.trans hspelled))]
    · exact absurd (List.mem_map.mpr ⟨entry, hentry, hspelled.symm⟩) hnone

/-- A lexeme is an identifier just when it is a word and no keyword. -/
theorem Lexeme.identifier_iff (h : Lexeme kind cs) :
    kind = .identifier ↔ IsWord cs ∧ cs ∉ spellings := by
  constructor
  · exact h.name
  · rintro ⟨hcs, hnone⟩
    rcases h.kind_of_word hcs with ⟨word, hmem, heq⟩ | ⟨hkind, -⟩
    · exact absurd (List.mem_map.mpr ⟨_, hmem, heq⟩) hnone
    · exact hkind

/-- The longest lexeme is no slash before another slash: the two would begin a comment. -/
theorem Longest.head_ne_slash (h : Longest Lexical cs rest) (hlexeme : Lexeme kind cs)
    (hkind : kind = .slash) : rest.head? ≠ some '/' := by
  have hslash : ∀ entry ∈ operators, entry.2 = .slash → entry.1.toList = ['/'] := by decide
  cases hlexeme with
  | operator hmem =>
    rw [hslash _ hmem hkind] at h
    intro hhead
    obtain ⟨more, rfl⟩ := List.head?_eq_some_iff.mp hhead
    have hcomment : Comment ['/', '/'] := .mk List.not_mem_nil
    have hle := h.length_le ['/', '/'] ⟨more, rfl⟩ (.inl hcomment)
    exact absurd hle (by decide)
  | keyword hmem =>
    have hoperator : Kind.slash ∈ operators.map Prod.snd := by decide
    exact absurd (hkind ▸ hoperator) (kind_of_keyword _ hmem).2.2.2.2
  | number _ | identifier _ _ | text _ => cases hkind

end Kinds

section Munched

variable {t : Token} {rest : List Char}

/-- What is to be said of the longest lexeme. -/
theorem munched_of_lexeme (h : Lexeme t.kind t.lexeme) (hlongest : Longest Lexical t.lexeme rest) :
    Munched t rest where
  lexeme _ := ⟨h, hlongest⟩
  number hkind :=
    hlongest.mono (h.numeral hkind) fun _ hother => .inr ⟨_, .number hother⟩
  word hlexeme := hlongest.mono hlexeme fun _ hother => lexical_of_word hother
  keyword _ hentry := h.keyword_iff hentry
  identifier := h.identifier_iff
  text hkind := h.quoted hkind
  operator hkind := by
    refine hlongest.mono (h.isOperator hkind) ?_
    rintro other ⟨entry, hentry, rfl⟩
    exact .inr ⟨_, .operator hentry⟩
  slash hkind := hlongest.head_ne_slash h hkind
  stray hkind := absurd hkind h.ne_stray

/-- What is to be said of a token that is stray. -/
theorem munched_of_stray {cs : List Char} (h : Stray cs rest) (line : Nat) :
    Munched ⟨.stray, cs, line⟩ rest := by
  have hword : ¬ IsWord cs := not_isWord_of_stray h
  constructor
  case lexeme =>
    intro hne
    exact absurd rfl hne
  case word =>
    intro hcs
    exact absurd hcs hword
  case keyword =>
    intro entry hentry
    constructor
    · intro hkind
      exact absurd hkind.symm (kind_of_keyword entry hentry).2.2.2.1
    · intro hspelled
      obtain rfl : cs = entry.1.toList := hspelled
      exact absurd (isWord_of_keyword entry hentry) hword
  case identifier =>
    constructor
    · intro hkind
      cases hkind
    · rintro ⟨hcs, -⟩
      exact absurd hcs hword
  case operator =>
    intro hkind
    have hoperators : Kind.stray ∉ operators.map Prod.snd := by decide
    exact absurd hkind hoperators
  case stray =>
    intro _
    exact h
  case number | text | slash =>
    intro hkind
    cases hkind

/-- Every stretch that is a token is what the lexical grammar has at that point. -/
theorem Stretch.munched {c : Char} {more : List Char} {kind : Kind}
    (h : Stretch c more rest (some kind)) (line : Nat) : Munched ⟨kind, c :: more, line⟩ rest := by
  by_cases hkind : kind = .stray
  · have hstray := h.stray hkind
    rw [hkind]
    exact munched_of_stray hstray line
  · have hlexeme := h.lexeme hkind
    exact munched_of_lexeme hlexeme ⟨.inr ⟨kind, hlexeme⟩, h.length_le⟩

end Munched

/-! ## All answers of a scanner -/

namespace Scanner

/-- The scanner after some answers. -/
def after : Nat → Scanner → Scanner
  | 0, s => s
  | n + 1, s => after n s.next.2

/-- An answer is the end, or a token at the front of what is left after a gap. -/
theorem next_munched (s : Scanner) :
    (s.next.1.kind = .eof ∧ s.next.2.rest = []) ∨
      ∃ gap, s.rest = gap ++ (s.next.1.lexeme ++ s.next.2.rest) ∧
        Skipped gap (s.next.1.lexeme ++ s.next.2.rest) ∧ Munched s.next.1 s.next.2.rest := by
  obtain ⟨cs, line⟩ := s
  obtain ⟨ts, last, hscans⟩ := exists_scans line cs
  induction hscans with
  | done => exact .inl ⟨rfl, rfl⟩
  | @skip line last c more rest ts hstretch _ ih =>
    rw [next_of_skip hstretch]
    refine ih.imp_right ?_
    rintro ⟨gap, hrest, hskipped, hmunched⟩
    refine ⟨c :: (more ++ gap), ?_, ?_, hmunched⟩
    · rw [List.cons_append, List.append_assoc, ← hrest]
    · change rest = _ at hrest
      rw [hrest] at hstretch
      exact hstretch.skipped hskipped
  | @token line last kind c more rest ts hstretch _ _ =>
    rw [next_of_token hstretch]
    exact .inr ⟨[], rfl, .nil, hstretch.munched line⟩

/-- What is left after some answers is what they have not taken from the front. -/
theorem suffix_after (n : Nat) (s : Scanner) : (after n s).rest <:+ s.rest := by
  induction n generalizing s with
  | zero => exact List.suffix_rfl
  | succ n ih =>
    refine (ih s.next.2).trans ?_
    rcases s.next_munched with ⟨-, hnil⟩ | ⟨gap, hrest, -⟩
    · rw [hnil]
      exact List.nil_suffix
    · rw [hrest, ← List.append_assoc]
      exact List.suffix_append ..

end Scanner

/-- Tokens are the longest that there are. Whenever a scanner has been asked for some tokens of a
source and answers with another one, `t`, which is not the end, the source goes on at that point
with what is skipped, the lexeme of the token, and what is left for later; and the token is what the
lexical grammar has there, as `Munched` says for each kind. -/
theorem scanner_munches {source : List Char} {n : Nat} {t : Token} {s : Scanner}
    (h : (Scanner.after n ⟨source, 1⟩).next = (t, s)) (ht : t.kind ≠ .eof) :
    ∃ before gap, source = before ++ (gap ++ (t.lexeme ++ s.rest)) ∧
      (Scanner.after n ⟨source, 1⟩).rest = gap ++ (t.lexeme ++ s.rest) ∧
      Skipped gap (t.lexeme ++ s.rest) ∧ Munched t s.rest := by
  have hanswer := (Scanner.after n ⟨source, 1⟩).next_munched
  rw [h] at hanswer
  rcases hanswer with ⟨heof, -⟩ | ⟨gap, hrest, hskipped, hmunched⟩
  · exact absurd heof ht
  · obtain ⟨before, hbefore⟩ := Scanner.suffix_after n ⟨source, 1⟩
    refine ⟨before, gap, ?_, hrest, hskipped, hmunched⟩
    rw [← hrest, hbefore]

/-- Points and equals signs in a row. -/
def inARow : List Char :=
  "1.. //\n1.5.2!===".toList

/-- In `inARow` the second number has a fraction, and the point after it is a token; `!===` is cut
after two characters. -/
theorem scanner_munches_inARow :
    Longest Numeral ['1', '.', '5'] ['.', '2', '!', '=', '=', '='] ∧
      Longest IsOperator ['!', '='] ['=', '='] := by
  have hnumber : (Scanner.after 3 ⟨inARow, 1⟩).next =
      (⟨.number, ['1', '.', '5'], 2⟩, ⟨['.', '2', '!', '=', '=', '='], 2⟩) := rfl
  have hbang : (Scanner.after 6 ⟨inARow, 1⟩).next =
      (⟨.bangEqual, ['!', '='], 2⟩, ⟨['=', '='], 2⟩) := rfl
  obtain ⟨-, -, -, -, -, hnumber⟩ := scanner_munches hnumber (by decide)
  obtain ⟨-, -, -, -, -, hbang⟩ := scanner_munches hbang (by decide)
  exact ⟨hnumber.number rfl, hbang.operator (by decide)⟩

end Lox.Token
