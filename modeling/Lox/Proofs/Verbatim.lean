import Lox.Proofs.Correctness
import Lox.Proofs.Lexical
import Lox.Proofs.Sessions
import Lox.Proofs.Utf8

/-!
# Texts are taken as they are written

Between two quotes any bytes but a quote may stand. The value of such a literal is a text of those
bytes, with U+FFFD for each that is not part of the spelling of a character (`interpret_text`).

* `Repaired` says for each byte of a byte string whether it is kept or replaced, by looking for a
  character around it. The reader finds characters from left to right instead. That comes to the
  same (`repaired_iff`), because spellings do not overlap: what one of them has after its first byte
  begins no other (`eq_nil_of_spelled`).
* `Engine.interpreted_of_sentences`: to interpret a source is to evaluate the program that it is.
-/

namespace Lox

namespace Utf8

/-! ## Repaired texts -/

/-- A byte, with bytes before and after it, is part of the spelling of a character. -/
def Belongs (front : Bytes) (b : UInt8) (back : Bytes) : Prop :=
  ∃ c before after, String.utf8EncodeChar c = before ++ b :: after ∧ before <:+ front ∧
    after <+: back

/-- The bytes that stand for U+FFFD. -/
def replacement : Bytes :=
  String.utf8EncodeChar '�'

/-- `Repaired front bs rs` says that `rs` is what becomes of the bytes `bs` after `front` when each
that is not part of the spelling of a character is replaced. -/
inductive Repaired : Bytes → Bytes → Bytes → Prop where
  | nil {front : Bytes} : Repaired front [] []
  | keep {front back rs : Bytes} {b : UInt8} : Belongs front b back →
      Repaired (front ++ [b]) back rs → Repaired front (b :: back) (b :: rs)
  | replace {front back rs : Bytes} {b : UInt8} : ¬ Belongs front b back →
      Repaired (front ++ [b]) back rs → Repaired front (b :: back) (replacement ++ rs)

/-- Bytes are repaired in one way only. -/
theorem Repaired.unique {front bs rs rs' : Bytes} (h : Repaired front bs rs)
    (h' : Repaired front bs rs') : rs = rs' := by
  induction h generalizing rs' with
  | nil =>
    cases h'
    rfl
  | keep hbelongs _ ih =>
    cases h' with
    | keep _ hrest => rw [ih hrest]
    | replace hnot _ => exact absurd hbelongs hnot
  | replace hnot _ ih =>
    cases h' with
    | keep hbelongs _ => exact absurd hbelongs hnot
    | replace _ hrest => rw [ih hrest]

section Spelled

variable {b : UInt8} {bs front back rest : Bytes} {c d : Char} {n code v : Nat}

/-- All bytes that are read as continuation bytes are in their range. -/
theorem mem_of_trail (h : trail n code bs = some v) : ∀ b ∈ bs.take n, 0x80 ≤ b ∧ b < 0xC0 := by
  induction n generalizing code bs with
  | zero => exact List.forall_mem_nil _
  | succ n ih =>
    rcases bs with _ | ⟨b, bs⟩
    · cases h
    rw [trail] at h
    split at h
    · exact List.forall_mem_cons.mpr ⟨‹_›, ih h⟩
    · cases h

/-- A continuation byte announces nothing. -/
theorem shape?_eq_none (h : 0x80 ≤ b ∧ b < 0xC0) : shape? b = none := by
  rw [shape?, if_neg (UInt8.not_lt.mpr h.1), if_pos h.2]

/-- The first byte of a spelling announces the others, which announce nothing. -/
theorem shape?_of_spelled (h : String.utf8EncodeChar c = b :: bs) :
    shape? b ≠ none ∧ ∀ d ∈ bs, shape? d = none := by
  have hleading := leading?_utf8EncodeChar c []
  rw [List.append_nil, h, List.length_cons, Nat.add_sub_cancel] at hleading
  obtain ⟨bits, least, hshape, htrail, -⟩ := exists_of_leading? hleading
  constructor
  · rw [hshape]
    exact Option.some_ne_none _
  · intro d hd
    refine shape?_eq_none (mem_of_trail htrail d ?_)
    rw [List.take_length]
    exact hd

/-- Where a spelling begins within another one, it begins at its front. -/
theorem eq_nil_of_spelled (hc : String.utf8EncodeChar c = front ++ b :: back)
    (hd : String.utf8EncodeChar d = b :: rest) : front = [] := by
  rcases front with _ | ⟨a, front⟩
  · rfl
  · have hbyte := (shape?_of_spelled hc).2 b (List.mem_append_right _ List.mem_cons_self)
    exact absurd hbyte (shape?_of_spelled hd).1

/-- No spelling is longer than another one at the same place. -/
theorem eq_nil_of_spelled_append (h : String.utf8EncodeChar d = String.utf8EncodeChar c ++ rest) :
    rest = [] := by
  have hread := leading?_utf8EncodeChar c rest
  have hread' := leading?_utf8EncodeChar d []
  rw [List.append_nil, h, hread] at hread'
  obtain rfl : c = d := (Prod.mk.inj (Option.some.inj hread')).1
  exact List.append_right_eq_self.mp h.symm

/-- Every character is spelled with at least one byte. -/
theorem exists_spelled (c : Char) : ∃ b bs, String.utf8EncodeChar c = b :: bs := by
  apply List.exists_cons_of_ne_nil
  apply List.ne_nil_of_length_pos
  rw [String.length_utf8EncodeChar]
  exact Char.utf8Size_pos c

end Spelled

/-! ## From left to right -/

/-- No spelling goes on from `front` to `bs`. -/
def Parted (front bs : Bytes) : Prop :=
  ∀ c before after, String.utf8EncodeChar c = before ++ after → before <:+ front →
    after <+: bs → before = [] ∨ after = []

section Parted

variable {b : UInt8} {front rest rs : Bytes} {c : Char}

/-- Nothing goes on from the beginning of a text. -/
theorem parted_nil (bs : Bytes) : Parted [] bs := by
  intro c before after _ hbefore _
  exact .inl (List.suffix_nil.mp hbefore)

/-- No spelling goes on from a character that is whole. -/
theorem parted_char (c : Char) (front rest : Bytes) :
    Parted (front ++ String.utf8EncodeChar c) rest := by
  intro d before after hd hbefore _
  rcases before with _ | ⟨b, before⟩
  · exact .inl rfl
  right
  obtain ⟨a, bs, hspelled⟩ := exists_spelled c
  -- the two spellings end at the same place: one of them has the other within it
  rcases List.suffix_or_suffix_of_suffix hbefore (List.suffix_append front _) with
    ⟨front', hfront⟩ | ⟨front', hfront⟩
  · have hnil := eq_nil_of_spelled hfront.symm hd
    rw [hnil, List.nil_append] at hfront
    rw [hfront] at hd
    exact eq_nil_of_spelled_append hd
  · rw [← hfront, hspelled, List.append_assoc] at hd
    have hnil := eq_nil_of_spelled hd hspelled
    rw [hnil, List.nil_append, ← hspelled] at hd
    exact eq_nil_of_spelled_append hd

/-- Where no character is found there is none that begins at the byte. -/
theorem leading?_ne_none {after : Bytes} (hc : String.utf8EncodeChar c = b :: after)
    (hafter : after <+: rest) : leading? (b :: rest) ≠ none := by
  obtain ⟨more, rfl⟩ := hafter
  rw [← List.cons_append, ← hc, leading?_utf8EncodeChar]
  exact Option.some_ne_none _

/-- A stray byte where no spelling goes on is part of none. -/
theorem Parted.not_belongs (h : Parted front (b :: rest)) (hstray : leading? (b :: rest) = none) :
    ¬ Belongs front b rest := by
  rintro ⟨c, before, after, hc, hbefore, hafter⟩
  have hfront : b :: after <+: b :: rest := List.cons_prefix_cons.mpr ⟨rfl, hafter⟩
  rcases h c before (b :: after) hc hbefore hfront with hnil | hnil
  · rw [hnil] at hc
    exact leading?_ne_none hc hafter hstray
  · cases hnil

/-- No spelling goes on from a stray byte. -/
theorem Parted.stray (h : Parted front (b :: rest)) (hstray : leading? (b :: rest) = none) :
    Parted (front ++ [b]) rest := by
  intro c before after hc hbefore hafter
  rcases List.suffix_concat_iff.mp hbefore with hnil | ⟨before', rfl, hbefore'⟩
  · exact .inl hnil
  · exfalso
    rw [List.append_assoc] at hc
    exact h.not_belongs hstray ⟨c, before', after, hc, hbefore', hafter⟩

/-- What is left of a spelling is kept. -/
theorem Repaired.spelled {before after : Bytes} (hc : String.utf8EncodeChar c = before ++ after)
    (h : Repaired (front ++ String.utf8EncodeChar c) rest rs) :
    Repaired (front ++ before) (after ++ rest) (after ++ rs) := by
  induction after generalizing before with
  | nil =>
    rw [List.append_nil] at hc
    rw [← hc]
    exact h
  | cons b after ih =>
    have hmoved : String.utf8EncodeChar c = before ++ [b] ++ after := by
      rw [hc, List.append_assoc]
      rfl
    have hrest := ih hmoved
    rw [← List.append_assoc] at hrest
    exact .keep ⟨c, before, after, hc, List.suffix_append .., List.prefix_append ..⟩ hrest

/-- A character that is whole is kept. -/
theorem Repaired.char (h : Repaired (front ++ String.utf8EncodeChar c) rest rs) :
    Repaired front (String.utf8EncodeChar c ++ rest) (String.utf8EncodeChar c ++ rs) := by
  have hspelled := h.spelled (List.nil_append (String.utf8EncodeChar c)).symm
  rw [List.append_nil] at hspelled
  exact hspelled

/-- What is read and spelled again is the repaired text. -/
theorem repaired_of_parted (bs : Bytes) (h : Parted front bs) :
    Repaired front bs (encode (decode bs)) := by
  induction bs using pieces_induction generalizing front with
  | nil => exact .nil
  | char c rest ih =>
    rw [decode, pieces_utf8EncodeChar_append]
    exact (ih (parted_char c front rest)).char
  | stray b rest hstray ih =>
    rw [decode, pieces_cons_of_stray hstray]
    exact .replace (h.not_belongs hstray) (ih (h.stray hstray))

/-- To repair a text is to read it and to spell it again. -/
theorem repaired_iff {bs rs : Bytes} : Repaired [] bs rs ↔ rs = encode (decode bs) := by
  have hrepaired := repaired_of_parted bs (parted_nil bs)
  constructor
  · intro h
    exact h.unique hrepaired
  · rintro rfl
    exact hrepaired

end Parted

end Utf8

open Grammar

/-! ## Interpreting a program -/

namespace Engine

variable {κ : Type} [Sink κ]

/-- What interpreting a source on an engine comes to, and its sink afterwards. -/
def interpreted (e : Engine κ) (source : Bytes) : Except Failure Value × κ :=
  ((e.call (.interpret source)).1.result, (e.call (.interpret source)).1.console)

/-- To interpret a source is to evaluate the program that it is. -/
theorem interpreted_of_sentences (e : Engine κ) {source : Bytes} {ts : List Token} {last : Nat}
    {p : List Sentence} (hscan : Token.scan (Utf8.decode source) = ⟨ts, last⟩)
    (hstray : .stray ∉ ts.map Token.kind) (hp : Sentences ts p)
    (hadmitted : Program.Admitted [] p) :
    e.interpreted source =
      (evalProgram e.options last p e.console).map (Except.mapError Failure.ofStop) id := by
  have hsentences : Sentences (Token.scan (Utf8.decode source)).tokens p := by
    rw [hscan]
    exact hp
  have hcompile : compile source = .ok (Compilation.ofSource source).chunk := by
    refine compile_of_sentences ?_ hsentences hadmitted
    rw [hscan]
    intro t ht hkind
    exact hstray (List.mem_map.mpr ⟨t, ht, hkind⟩)
  have hanswer : (e.call (.interpret source)).1 =
      .ofOutcome [(Compilation.ofSource source).listingEntry]
        (Machine.run e.options (Compilation.ofSource source).chunk e.console) := by
    rw [call_eq, Call.answer, hcompile]
  have hrun := Machine.run_program hcompile hsentences e.options e.console
  rw [hscan] at hrun
  rw [interpreted, hanswer, ← hrun]
  rfl

end Engine

/-! ## Text literals -/

section Texts

variable {b : Bytes} {body : List Char}

/-- The bytes between two quotes are read on their own. -/
theorem Utf8.decode_quoted (front b back : Bytes) :
    decode (front ++ 0x22 :: (b ++ 0x22 :: back)) =
      decode front ++ '"' :: (decode b ++ '"' :: decode back) := by
  rw [decode_append_ascii (by decide), decode_append_ascii (by decide)]
  rfl

/-- Where no byte is a quote no character is one. -/
theorem Utf8.quote_not_mem_decode (h : 0x22 ∉ b) : ∀ c ∈ decode b, c ≠ '"' := by
  rintro c hc rfl
  exact h (mem_of_mem_decode (by decide) hc)

/-- The token of a text with this between its quotes. -/
def textToken (body : List Char) : Token :=
  ⟨.text, '"' :: (body ++ ['"']), 1⟩

/-- The token of a text is a literal with that text. -/
theorem literal_textToken (body : List Char) :
    Literal (textToken body) (.text (Utf8.encode body)) := by
  have hvalue : Expr.unquoted (textToken body).lexeme = Utf8.encode body := by
    show Utf8.encode (body ++ ['"']).dropLast = Utf8.encode body
    rw [List.dropLast_concat]
  rw [← hvalue]
  exact .text rfl

/-- A text between quotes is one token. -/
theorem scans_text (h : ∀ c ∈ body, c ≠ '"') :
    ∃ last, Token.scan ('"' :: (body ++ ['"'])) = ⟨[textToken body], last⟩ := by
  have htext : Token.Stretch '"' (body ++ ['"']) [] (some .text) := .text h
  have hscans : Token.Scans 1 ('"' :: (body ++ ['"'] ++ [])) [textToken body] _ :=
    .token htext .done
  rw [List.append_nil] at hscans
  exact ⟨_, Token.scans_iff.mp hscans⟩

/-- The tokens of a text that is printed. -/
theorem scans_printText (h : ∀ c ∈ body, c ≠ '"') :
    ∃ last, Token.scan ("print ".toList ++ '"' :: (body ++ '"' :: ";".toList)) =
      ⟨[⟨.kwPrint, "print".toList, 1⟩, textToken body, ⟨.semicolon, [';'], last⟩], last⟩ := by
  have htext : Token.Stretch '"' (body ++ ['"']) [';'] (some .text) := .text h
  have hsemicolon : Token.Stretch ';' [] [] (some .semicolon) := .single (by decide)
  have hblank : Token.Stretch ' ' [] ('"' :: (body ++ ['"'] ++ [';'])) none := .blank rfl
  have hword : Token.Stretch 'p' ['r', 'i', 'n', 't'] (' ' :: ('"' :: (body ++ ['"'] ++ [';'])))
      (some .kwPrint) := by
    refine .word rfl ⟨List.all_eq_true.mp rfl, ?_⟩
    intro d hd
    obtain rfl : ' ' = d := Option.some.inj hd
    rfl
  have hscans := Token.scans_iff.mp
    (.token hword (.skip hblank (.token htext (.token hsemicolon .done))))
  rw [List.append_assoc] at hscans
  exact ⟨_, hscans⟩

/-- There is room for one text in the pool. -/
theorem fits_text (t : Token) (r : Bytes) :
    (Tree.literal t (.text r)).Fits (Pool.addAll [] [.text r]).Admits := by
  have hslot : Pool.slot? [.text r] (.text r) = some 0 := by
    simp [Pool.slot?, Value.equals]
  have hlacks : Pool.lacks [.text r] (.text r) = false := by
    rw [Pool.lacks, hslot]
    rfl
  exact Tree.fits_literal_iff.mpr hlacks

/-- A literal has its value where there is room for it. -/
theorem eval_text {o : Machine.Options} (h : 1 ≤ o.limit) (t : Token) (v : Value) :
    (Tree.literal t v).eval o 0 = .ok v := by
  have hroom : ¬ o.limit ≤ (0 : Nat) := by omega
  rw [Tree.eval, if_neg hroom]

variable {κ : Type} [Sink κ] {e : Engine κ}

/-- A text between quotes is a program with that text as its result. -/
theorem interpreted_text (h : 0x22 ∉ b) (hlimit : 1 ≤ e.options.limit) :
    e.interpreted (0x22 :: (b ++ [0x22])) =
      (.ok (.text (Utf8.encode (Utf8.decode b))), e.console) := by
  obtain ⟨last, hscan⟩ := scans_text (Utf8.quote_not_mem_decode h)
  have hdecode : Utf8.decode (0x22 :: (b ++ [0x22])) = '"' :: (Utf8.decode b ++ ['"']) :=
    Utf8.decode_quoted [] b []
  rw [← hdecode] at hscan
  have hstray : Token.Kind.stray ∉ [.text] := by decide
  have hp : Sentences [textToken (Utf8.decode b)] _ := .last (literal_textToken _).derives
  rw [e.interpreted_of_sentences hscan hstray hp ⟨fits_text _ _, trivial⟩, evalProgram,
    eval_text hlimit]
  rfl

/-- What printing a text on a line of its own comes to: one write, after which the program ends if
the sink has taken it. -/
def printedLine (k : κ) (r : Bytes) : Except Failure Value × κ :=
  match Sink.write k (r ++ [0x0A]) with
  | (k, none) => (.ok .nil, k)
  | (k, some reason) => (.error (.ofStop (.refused reason)), k)

/-- To print a text between quotes is to write it on a line of its own. -/
theorem interpreted_printText (h : 0x22 ∉ b) (hlimit : 1 ≤ e.options.limit) :
    e.interpreted (Utf8.ofString "print " ++ 0x22 :: (b ++ 0x22 :: Utf8.ofString ";")) =
      printedLine e.console (Utf8.encode (Utf8.decode b)) := by
  obtain ⟨last, hscan⟩ := scans_printText (Utf8.quote_not_mem_decode h)
  have hdecode : Utf8.decode
      (Utf8.ofString "print " ++ 0x22 :: (b ++ 0x22 :: Utf8.ofString ";")) =
        "print ".toList ++ '"' :: (Utf8.decode b ++ '"' :: ";".toList) := by
    rw [Utf8.decode_quoted, Utf8.ofString, Utf8.ofString, Utf8.decode_encode, Utf8.decode_encode]
  rw [← hdecode] at hscan
  have hstray : Token.Kind.stray ∉ [.kwPrint, .text, .semicolon] := by decide
  have hp : Sentences [⟨.kwPrint, "print".toList, 1⟩, textToken (Utf8.decode b),
      ⟨.semicolon, [';'], last⟩] _ := .print rfl (literal_textToken _).derives rfl .nil
  have hroom : ¬ e.options.limit ≤ 0 := by omega
  rw [e.interpreted_of_sentences hscan hstray hp ⟨fits_text _ _, trivial⟩, evalProgram,
    eval_text hlimit, printedLine]
  dsimp only [Value.printed]
  rcases Sink.write e.console (Utf8.encode (Utf8.decode b) ++ [0x0A]) with ⟨k, _ | reason⟩
  · dsimp only
    rw [evalProgram, if_neg hroom]
    rfl
  · rfl

end Texts

/-- Texts are taken as they are written. For bytes among which there is no quote there is one text
`r`: these bytes, with U+FFFD for each that is not part of the spelling of a character, so that it
is the bytes themselves if they spell characters. With room for a value on the stack, the bytes
between quotes are a program whose result is `r`, and to print that is to write `r` and one line
feed. -/
theorem interpret_text {b : Bytes} (h : 0x22 ∉ b) :
    ∃ r, (∀ rs, Utf8.Repaired [] b rs ↔ rs = r) ∧ ((∃ cs, b = Utf8.encode cs) → r = b) ∧
      ∀ (κ : Type) [Sink κ] (e : Engine κ), 1 ≤ e.options.limit →
        e.interpreted (0x22 :: (b ++ [0x22])) = (.ok (.text r), e.console) ∧
          e.interpreted (Utf8.ofString "print " ++ 0x22 :: (b ++ 0x22 :: Utf8.ofString ";")) =
            printedLine e.console r := by
  refine ⟨Utf8.encode (Utf8.decode b), fun rs => Utf8.repaired_iff, ?_, ?_⟩
  · rintro ⟨cs, rfl⟩
    rw [Utf8.decode_encode]
  · intro κ _ e hlimit
    exact ⟨interpreted_text h hlimit, interpreted_printText h hlimit⟩

/-- A keyword, what would be a comment, a backslash, a zero byte, a line feed and a letter of two
bytes. Then, up to the end, a spelling that is too long, one of no character, and the beginning of
one. -/
def ragged : Bytes :=
  Utf8.ofString "or // \\\x00\né" ++ [0xC0, 0x80, 0xED, 0xA0, 0x80, 0xE2, 0x82]

/-- Each byte of the last three is replaced. -/
def raggedText : Bytes :=
  Utf8.ofString "or // \\\x00\né�������"

/-- The text that is given and printed for these bytes. -/
theorem interpret_text_ragged :
    0x22 ∉ ragged ∧
      (Engine.new { limit := 1 } ({} : Console)).interpreted (0x22 :: (ragged ++ [0x22])) =
        (.ok (.text raggedText), {}) ∧
      (Engine.new { limit := 1 } ({} : Console)).interpreted
          (Utf8.ofString "print " ++ 0x22 :: (ragged ++ 0x22 :: Utf8.ofString ";")) =
        (.ok .nil, ⟨none, [raggedText ++ [0x0A]]⟩) := by
  have hquote : 0x22 ∉ ragged := by decide
  obtain ⟨r, hr, -, hinterpreted⟩ := interpret_text hquote
  obtain rfl : raggedText = r := (hr raggedText).mp (Utf8.repaired_iff.mpr (by decide))
  exact ⟨hquote, hinterpreted Console (.new { limit := 1 } {}) (by decide)⟩

end Lox
