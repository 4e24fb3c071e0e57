import Lox.Proofs.Steps

/-!
# What a listing says

A listing is read from its text. A line that ends in `<truncated>` reports an operand that is cut
short, and one that ends in an arrow and a number shows the target of a jump. Nothing else ends like
that: a constant ends in a quotation mark or is out of range, and all other lines end in a letter or
a parenthesis. So the text of a line gives away what was fetched (`reportsTruncated_iff`,
`showsTarget_iff`).

The lines follow one another. `Listed c n stops` are the lines from the offset `n` on, each with the
offset where it begins, and the next one begins where the line before says (`instr?`). They reach
the end of the code exactly, from any offset (`exists_listed`), and a listing consists of them
(`listing_eq`).
-/

namespace Lox

/-! ## How a text ends -/

namespace Text

/-- The last character of a text. -/
def lastChar? (s : String) : Option Char :=
  s.toList.getLast?

/-- A text that is put together ends as its last part does. -/
theorem lastChar?_append (s : String) {t : String} {a : Char} (h : lastChar? t = some a) :
    lastChar? (s ++ t) = some a := by
  unfold lastChar? at *
  rw [String.toList_append, List.getLast?_append, h]
  rfl

/-- A numeral ends in a digit. -/
theorem exists_lastChar?_toString (n : Nat) :
    ∃ a, lastChar? (toString n) = some a ∧ a.isDigit = true := by
  have hlist : (toString n).toList = Nat.toDigits 10 n := Nat.toList_repr
  have hne : Nat.toDigits 10 n ≠ [] := Nat.toDigits_ne_nil
  refine ⟨(Nat.toDigits 10 n).getLast hne, ?_, ?_⟩
  · rw [lastChar?, hlist, List.getLast?_eq_some_getLast hne]
  · exact Nat.isDigit_of_mem_toDigits (by decide) (by decide) (List.getLast_mem hne)

/-- The digits at the end of a text, last first, are those of the numeral after its last arrow. -/
theorem takeWhile_isDigit (p : String) (n : Nat) :
    (p ++ " -> " ++ toString n).toList.reverse.takeWhile Char.isDigit =
      (Nat.toDigits 10 n).reverse := by
  have hlist : (toString n).toList = Nat.toDigits 10 n := Nat.toList_repr
  have hdigits : ∀ a ∈ (Nat.toDigits 10 n).reverse, a.isDigit = true := by
    intro a ha
    exact Nat.isDigit_of_mem_toDigits (by decide) (by decide) (List.mem_reverse.mp ha)
  have harrow : (" -> " : String).toList.reverse = [' ', '>', '-', ' '] := rfl
  rw [String.toList_append, String.toList_append, hlist, List.reverse_append, List.reverse_append,
    harrow, List.takeWhile_append_of_pos hdigits, List.cons_append,
    List.takeWhile_cons_of_neg (by decide), List.append_nil]

/-- The numeral after the last arrow of a text is told by the text. -/
theorem eq_of_arrow {p q : String} {m n : Nat}
    (h : p ++ " -> " ++ toString m = q ++ " -> " ++ toString n) : m = n := by
  have hdigits : (Nat.toDigits 10 m).reverse = (Nat.toDigits 10 n).reverse := by
    rw [← takeWhile_isDigit p m, ← takeWhile_isDigit q n, h]
  have hread := congrArg (Nat.ofDigitChars 10 · 0) (List.reverse_inj.mp hdigits)
  simpa [Nat.ofDigitChars_toDigits] using hread

end Text

namespace Chunk

/-! ## What a line says -/

/-- A line of a listing reports an operand that is cut short. -/
def ReportsTruncated (line : String) : Prop :=
  ∃ p, line = p ++ "<truncated>"

/-- A line of a listing shows the target of a jump. -/
def ShowsTarget (line : String) (target : Nat) : Prop :=
  ∃ p, line = p ++ " -> " ++ toString target

section Line

variable {line : String} {a : Char}

/-- A line that reports a truncated operand ends in an angle bracket. -/
theorem lastChar?_of_reportsTruncated (h : ReportsTruncated line) :
    Text.lastChar? line = some '>' := by
  obtain ⟨p, rfl⟩ := h
  exact Text.lastChar?_append p rfl

/-- A line that does not end in a digit shows no target. -/
theorem not_showsTarget (h : Text.lastChar? line = some a) (hdigit : a.isDigit = false)
    (target : Nat) : ¬ShowsTarget line target := by
  rintro ⟨p, rfl⟩
  obtain ⟨b, hb, hdigit'⟩ := Text.exists_lastChar?_toString target
  obtain rfl := Option.some.inj ((Text.lastChar?_append _ hb).symm.trans h)
  rw [hdigit] at hdigit'
  cases hdigit'

/-- A line that reports a truncated operand shows no target. -/
theorem not_showsTarget_of_reportsTruncated (h : ReportsTruncated line) (target : Nat) :
    ¬ShowsTarget line target :=
  not_showsTarget (lastChar?_of_reportsTruncated h) rfl target

/-- A line that neither reports nor shows anything. -/
def Silent (line : String) : Prop :=
  ¬ReportsTruncated line ∧ ∀ target, ¬ShowsTarget line target

/-- A line that ends in neither a digit nor an angle bracket is silent. -/
theorem silent_of_lastChar? (h : Text.lastChar? line = some a) (hend : a ≠ '>')
    (hdigit : a.isDigit = false) : Silent line := by
  refine ⟨?_, not_showsTarget h hdigit⟩
  intro hreports
  have hlast := (lastChar?_of_reportsTruncated hreports).symm.trans h
  exact hend (Option.some.inj hlast).symm

/-- A line that says that a constant is out of range is silent, though it ends in an angle bracket.
-/
theorem silent_outOfRange (p : String) : Silent (p ++ " <out of range>") := by
  refine ⟨?_, not_showsTarget (Text.lastChar?_append p rfl) rfl⟩
  -- both end in the same character, but the one text is not the end of the other
  rintro ⟨q, h⟩
  have hsuffix : "<truncated>".toList <:+ (p ++ " <out of range>").toList := by
    rw [h, String.toList_append]
    exact List.suffix_append _ _
  have hsuffix' : " <out of range>".toList <:+ (p ++ " <out of range>").toList := by
    rw [String.toList_append]
    exact List.suffix_append _ _
  have hwithin := List.suffix_of_suffix_length_le hsuffix hsuffix' (by decide)
  revert hwithin
  decide

end Line

/-- The operations whose operand is the distance of a jump. -/
def leaps : List Opcode :=
  [.jump, .jumpIfFalse]

section Fetched

variable (consts : List Value) (offset : Nat) (previous : Option Int) (line : Int)

/-- A line ends with the description of what was fetched. -/
theorem exists_instrLine (f : Fetched) :
    ∃ p, instrLine consts offset previous line f = p ++ describe consts offset f :=
  ⟨_, rfl⟩

/-- The name of an operation ends in neither a digit nor an angle bracket. -/
theorem exists_lastChar?_name (op : Opcode) :
    ∃ a, Text.lastChar? op.name = some a ∧ a ≠ '>' ∧ a.isDigit = false := by
  cases op <;> exact ⟨_, rfl, by decide, rfl⟩

/-- The name of an unknown byte ends in neither a digit nor an angle bracket. -/
theorem exists_lastChar?_nameOfByte (b : UInt8) :
    ∃ a, Text.lastChar? (Opcode.nameOfByte b) = some a ∧ a ≠ '>' ∧ a.isDigit = false := by
  unfold Opcode.nameOfByte
  split
  · exact exists_lastChar?_name _
  · exact ⟨')', Text.lastChar?_append _ rfl, by decide, rfl⟩

/-- The line of a jump ends in an arrow and its target. -/
theorem instrLine_of_leap {i : Instr} (h : i.op ∈ leaps) :
    ∃ p, instrLine consts offset previous line (.whole i) =
      p ++ " -> " ++ toString (offset + i.size + i.operand) := by
  obtain ⟨p, hp⟩ := exists_instrLine consts offset previous line (.whole i)
  have hdescribe : describe consts offset (.whole i) =
      nameColumn i.op ++ operandColumn offset ++
        (" -> " ++ toString (offset + i.size + i.operand)) := by
    obtain ⟨op, operand⟩ := i
    simp only [leaps, List.mem_cons, List.not_mem_nil, or_false] at h
    rcases h with rfl | rfl <;> rfl
  refine ⟨p ++ (nameColumn i.op ++ operandColumn offset), ?_⟩
  simp only [hp, hdescribe, String.append_assoc]

/-- Any line but that of a jump or of a truncated instruction is silent. -/
theorem silent_instrLine {f : Fetched} (htruncated : ∀ op, f ≠ .truncated op)
    (hleap : ∀ i, f = .whole i → i.op ∉ leaps) :
    Silent (instrLine consts offset previous line f) := by
  obtain ⟨p, hp⟩ := exists_instrLine consts offset previous line f
  rw [hp]
  cases f with
  | truncated op => exact absurd rfl (htruncated op)
  | unknown b =>
    obtain ⟨a, ha, hend, hdigit⟩ := exists_lastChar?_nameOfByte b
    exact silent_of_lastChar? (Text.lastChar?_append p ha) hend hdigit
  | whole i =>
    have hop := hleap i rfl
    obtain ⟨op, operand⟩ := i
    cases op
    case jump | jumpIfFalse => exact absurd (by simp [leaps]) hop
    case const =>
      simp only [describe]
      split
      · rename_i v _
        have hquote : Text.lastChar? s!" '{v.readable}'" = some '\'' := Text.lastChar?_append _ rfl
        exact silent_of_lastChar? (Text.lastChar?_append _ (Text.lastChar?_append _ hquote))
          (by decide) rfl
      · rw [← String.append_assoc]
        exact silent_outOfRange _
    all_goals
      obtain ⟨a, ha, hend, hdigit⟩ := exists_lastChar?_name _
      exact silent_of_lastChar? (Text.lastChar?_append p ha) hend hdigit

/-- A line reports a truncated operand just when that was fetched. -/
theorem reportsTruncated_iff {f : Fetched} :
    ReportsTruncated (instrLine consts offset previous line f) ↔ ∃ op, f = .truncated op := by
  constructor
  · intro h
    by_contra hnone
    have htruncated : ∀ op, f ≠ .truncated op := fun op hop => hnone ⟨op, hop⟩
    by_cases hleap : ∃ i, f = .whole i ∧ i.op ∈ leaps
    · obtain ⟨i, rfl, hop⟩ := hleap
      obtain ⟨p, hp⟩ := instrLine_of_leap consts offset previous line hop
      exact not_showsTarget_of_reportsTruncated h _ ⟨p, hp⟩
    · refine (silent_instrLine consts offset previous line htruncated ?_).1 h
      intro i hi hop
      exact hleap ⟨i, hi, hop⟩
  · rintro ⟨op, rfl⟩
    obtain ⟨p, hp⟩ := exists_instrLine consts offset previous line (.truncated op)
    refine ⟨p ++ nameColumn op, ?_⟩
    rw [hp, String.append_assoc]
    rfl

/-- A line shows a target just when a jump was fetched, and then the jump's. -/
theorem showsTarget_iff {f : Fetched} {target : Nat} :
    ShowsTarget (instrLine consts offset previous line f) target ↔
      ∃ i, f = .whole i ∧ i.op ∈ leaps ∧ target = offset + i.size + i.operand := by
  constructor
  · intro h
    have htruncated : ∀ op, f ≠ .truncated op := by
      intro op hop
      have hreports := (reportsTruncated_iff consts offset previous line).mpr ⟨op, hop⟩
      exact not_showsTarget_of_reportsTruncated hreports target h
    by_cases hleap : ∃ i, f = .whole i ∧ i.op ∈ leaps
    · obtain ⟨i, rfl, hop⟩ := hleap
      obtain ⟨p, hp⟩ := instrLine_of_leap consts offset previous line hop
      obtain ⟨q, hq⟩ := h
      exact ⟨i, rfl, hop, Text.eq_of_arrow (hq.symm.trans hp)⟩
    · refine absurd h ((silent_instrLine consts offset previous line htruncated ?_).2 target)
      intro i hi hop
      exact hleap ⟨i, hi, hop⟩
  · rintro ⟨i, rfl, hop, rfl⟩
    exact instrLine_of_leap consts offset previous line hop

end Fetched

/-! ## One line after another -/

/-- Where the line after that of something fetched at an offset begins. A truncated instruction
takes all that is left. -/
def nextLine (c : Chunk) (n : Nat) : Fetched → Nat
  | .unknown _ => n + 1
  | .truncated _ => c.size
  | .whole i => n + i.size

/-- The lines of a listing from an offset to the end of the code, each with the offset where it
begins. -/
inductive Listed (c : Chunk) : Nat → List (Nat × String) → Prop where
  | done : Listed c c.size []
  | line {n next : Nat} {text : String} {stops : List (Nat × String)} :
      c.instr? n = some (text, next) → Listed c next stops → Listed c n ((n, text) :: stops)

section Walk

variable {c : Chunk} {n next : Nat} {f : Fetched} {text : String} {stops : List (Nat × String)}

/-- Within the code there is always something to fetch. -/
theorem exists_fetchAt? (h : n < c.size) : ∃ f, c.fetchAt? n = some f := by
  cases hfetch : c.fetchAt? n with
  | none =>
    have hge := fetchAt?_eq_none_iff.mp hfetch
    omega
  | some f => exact ⟨f, rfl⟩

/-- A line lies within the code and takes up at least a byte. -/
theorem lt_nextLine (h : c.fetchAt? n = some f) : n < c.nextLine n f ∧ c.nextLine n f ≤ c.size := by
  have hlt := lt_size_of_fetchAt? h
  cases f with
  | unknown b => exact ⟨Nat.lt_succ_self n, hlt⟩
  | truncated op => exact ⟨hlt, Nat.le_refl _⟩
  | whole i => exact ⟨Nat.lt_add_of_pos_right (Nat.succ_pos _), add_size_le_of_fetchAt? h⟩

/-- The bytes that a line covers reach up to where the next one begins. -/
theorem add_coverage {b : UInt8} {rest : Bytes} (h : c.code.drop n = b :: rest) (f : Fetched) :
    n + 1 + coverage rest f = c.nextLine n f := by
  have hlength := congrArg List.length h
  simp only [List.length_drop, List.length_cons] at hlength
  cases f with
  | unknown b => rfl
  | truncated op =>
    simp only [coverage, nextLine, size]
    omega
  | whole i =>
    simp only [coverage, nextLine, Instr.size]
    omega

/-- The line for an offset within the code, and where the next one begins. -/
theorem instr?_eq (hlines : c.lines.length = c.code.length) (h : c.fetchAt? n = some f) :
    c.instr? n =
      some (instrLine c.consts n (c.lineBefore? n) (c.lineOf n) f, c.nextLine n f) := by
  have hlt : n < c.code.length := lt_size_of_fetchAt? h
  have hcode := List.drop_eq_getElem_cons hlt
  have hline : c.lines.drop n = c.lineOf n :: c.lines.drop (n + 1) := by
    have hltLines : n < c.lines.length := by omega
    rw [lineOf, List.drop_eq_getElem_cons hltLines]
    rfl
  have hfetch : fetch c.code[n] (c.code.drop (n + 1)) = f := by
    rw [fetchAt?, hcode] at h
    exact Option.some.inj h
  have hnonneg : ¬(n : Int) < 0 := by omega
  unfold instr?
  rw [if_neg hnonneg]
  simp only [Int.toNat_natCast, hcode, hline, hfetch, add_coverage hcode]
  rfl

/-- The line for an offset is that of what is fetched there. -/
theorem instr?_eq_some_iff (hlines : c.lines.length = c.code.length) :
    c.instr? n = some (text, next) ↔
      ∃ f, c.fetchAt? n = some f ∧
        text = instrLine c.consts n (c.lineBefore? n) (c.lineOf n) f ∧ next = c.nextLine n f := by
  constructor
  · intro h
    by_cases hlt : n < c.size
    · obtain ⟨f, hf⟩ := exists_fetchAt? hlt
      rw [instr?_eq hlines hf] at h
      obtain ⟨rfl, rfl⟩ := Prod.mk.inj (Option.some.inj h)
      exact ⟨f, hf, rfl, rfl⟩
    · have hdrop : c.code.drop n = [] := List.drop_eq_nil_of_le (Nat.le_of_not_lt hlt)
      simp [instr?, hdrop] at h
  · rintro ⟨f, hf, rfl, rfl⟩
    exact instr?_eq hlines hf

/-- From every offset the lines reach the end of the code. -/
theorem exists_listed (hlines : c.lines.length = c.code.length) (hn : n ≤ c.size) :
    ∃ stops, c.Listed n stops := by
  induction hleft : c.size - n using Nat.strongRecOn generalizing n with
  | _ left ih =>
    by_cases hlt : n < c.size
    · obtain ⟨f, hf⟩ := exists_fetchAt? hlt
      obtain ⟨hnext, hle⟩ := lt_nextLine hf
      obtain ⟨stops, hstops⟩ := ih (c.size - c.nextLine n f) (by omega) hle rfl
      exact ⟨_, .line (instr?_eq hlines hf) hstops⟩
    · obtain rfl : n = c.size := by omega
      exact ⟨[], .done⟩

/-- The lines leave no byte out. -/
theorem Listed.covers (h : c.Listed n stops) {m : Nat} (hn : n ≤ m) (hm : m < c.size) :
    ∃ p ∈ stops, ∃ next, c.instr? p.1 = some (p.2, next) ∧ p.1 ≤ m ∧ m < next := by
  induction h with
  | done => omega
  | @line n next text stops hinstr _ ih =>
    by_cases hnext : m < next
    · exact ⟨(n, text), List.mem_cons_self, next, hinstr, hn, hnext⟩
    · obtain ⟨p, hp, hcovers⟩ := ih (Nat.le_of_not_lt hnext)
      exact ⟨p, List.mem_cons_of_mem _ hp, hcovers⟩

/-- The line of a byte is the one before the next byte. -/
theorem lineBefore?_succ {line : Int} {lines : List Int} (h : c.lines.drop n = line :: lines) :
    c.lineBefore? (n + 1) = some line := by
  rw [lineBefore?, if_neg (Nat.succ_ne_zero n), Nat.add_sub_cancel, ← List.head?_drop, h]
  rfl

/-- What follows the element at an index is what is left from the next index on. -/
theorem drop_succ {α : Type} {xs : List α} {x : α} {rest : List α} (h : xs.drop n = x :: rest) :
    xs.drop (n + 1) = rest := by
  rw [← List.drop_drop, h]
  rfl

/-- Bytes that are passed over only move the offset. -/
theorem listFrom_skip (hlines : c.lines.length = c.code.length) (skip n : Nat)
    (seen : List String) :
    listFrom c.consts skip n (c.lineBefore? n) (c.code.drop n) (c.lines.drop n) seen =
      listFrom c.consts 0 (n + skip) (c.lineBefore? (n + skip)) (c.code.drop (n + skip))
        (c.lines.drop (n + skip)) seen := by
  induction skip generalizing n with
  | zero => rfl
  | succ skip ih =>
    rcases hcode : c.code.drop n with _ | ⟨b, rest⟩
    · have hend : c.code.drop (n + (skip + 1)) = [] := by
        rw [← List.drop_drop, hcode, List.drop_nil]
      simp only [hend, listFrom]
    · rcases hline : c.lines.drop n with _ | ⟨line, lines⟩
      · have hlength := congrArg List.length hcode
        have hlength' := congrArg List.length hline
        simp only [List.length_drop, List.length_cons, List.length_nil] at hlength hlength'
        omega
      · rw [listFrom, ← lineBefore?_succ hline, ← drop_succ hcode, ← drop_succ hline, ih (n + 1),
          Nat.add_right_comm, Nat.add_assoc]

/-- Listing the code from an offset on gives the lines from there on. -/
theorem Listed.listFrom_eq (hlines : c.lines.length = c.code.length) (h : c.Listed n stops)
    (seen : List String) :
    listFrom c.consts 0 n (c.lineBefore? n) (c.code.drop n) (c.lines.drop n) seen =
      (stops.map Prod.snd).reverse ++ seen := by
  induction h generalizing seen with
  | done =>
    have hend : c.code.drop c.size = [] := List.drop_eq_nil_of_le (Nat.le_refl _)
    simp [hend, listFrom]
  | @line n next text stops hinstr _ ih =>
    obtain ⟨f, hf, rfl, rfl⟩ := (instr?_eq_some_iff hlines).mp hinstr
    have hlt : n < c.code.length := lt_size_of_fetchAt? hf
    have hltLines : n < c.lines.length := by omega
    have hcode := List.drop_eq_getElem_cons hlt
    have hline := List.drop_eq_getElem_cons hltLines
    have hfetch : fetch c.code[n] (c.code.drop (n + 1)) = f := by
      rw [fetchAt?, hcode] at hf
      exact Option.some.inj hf
    have hlineOf : c.lineOf n = c.lines[n] := by
      rw [lineOf, hline]
      rfl
    rw [hcode, hline, listFrom]
    simp only [hfetch]
    rw [← lineBefore?_succ hline, listFrom_skip hlines, add_coverage hcode, ih, hlineOf]
    simp

/-- A listing is made of its lines. -/
theorem listing_eq (hlines : c.lines.length = c.code.length) (h : c.Listed 0 stops)
    (name : String) :
    c.listing name = Text.join (s!"== {name} ==\n" :: stops.map fun p => p.2 ++ "\n") := by
  have hlist : listFrom c.consts 0 0 none c.code c.lines [] = (stops.map Prod.snd).reverse := by
    simpa [lineBefore?] using h.listFrom_eq hlines []
  unfold listing
  simp only [hlist, List.reverse_reverse, List.map_map]
  rfl

end Walk

end Chunk

end Lox
