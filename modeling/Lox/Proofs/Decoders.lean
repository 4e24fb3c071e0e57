import Lox.Proofs.Indexed
import Lox.Proofs.Listing
import Lox.Proofs.Verification

/-!
# The three readers of code agree

The listing, the verifier and the machine each find out for themselves where an instruction ends,
whether its operand is all there, and where a jump leads. `decoders_agree` says that they come to
the same, for any bytes and at every offset, whether or not an instruction was meant to begin there.

* By its bytes, an operand is cut short when the code ends before it does (`CutShort`). Each of the
  three reports exactly that. The listing and the verifier by indices (`Indexed.instr`,
  `Indexed.verify`) stand beside the machine by indices, each with a comparison of its own between
  an offset and the length of the code, and come to the same too.
* The lines of a listing are what the verifier looks at, one after another, so it passes the code
  exactly when nothing that they say is wrong (`Listed.defectFrom?_eq_none_iff`).
* Where the machine goes on is what the line at its offset says, jump or not (`line_of_go`).
-/

namespace Lox

/-! ## Instructions by their bytes -/

/-- A read by an index succeeds just when there is an element with that index. -/
theorem Machine.Indexed.read_eq_ok_iff {α : Type} {xs : List α} {i : Nat} {x : α} :
    read xs (i : Int) = .ok x ↔ xs[i]? = some x := by
  have hneg : ¬(i : Int) < 0 := by omega
  unfold read Chunk.at?
  rw [if_neg hneg, Int.toNat_natCast]
  cases xs[i]? <;> simp

namespace Opcode

/-- A byte is read as an opcode just when it is the opcode's byte. -/
theorem ofByte?_eq_some_iff {b : UInt8} {op : Opcode} : ofByte? b = some op ↔ b = op.byte := by
  constructor
  · intro h
    have hlt : b.toNat < all.length := (List.getElem?_eq_some_iff.mp h).1
    have htable : ∀ n : Fin 18, all[n.val]?.map byte = some (UInt8.ofNat n.val) := by decide
    have hbyte := htable ⟨b.toNat, hlt⟩
    rw [ofByte?] at h
    simp only [h, Option.map_some, Option.some.injEq, UInt8.ofNat_toNat] at hbyte
    exact hbyte.symm
  · rintro rfl
    exact ofByte?_byte op

/-- No two opcodes have the same byte. -/
theorem byte_inj {op op' : Opcode} : op.byte = op'.byte ↔ op = op' := by
  rw [← ofByte?_eq_some_iff, ofByte?_byte, Option.some.injEq]

end Opcode

namespace Chunk

variable {c : Chunk} {n : Nat}

/-- What stands at an offset, by its first byte and the number of bytes after it. -/
theorem fetchAt?_cases (h : n < c.size) :
    (∃ b, c.code[n]? = some b ∧ (∀ op : Opcode, b ≠ op.byte) ∧
      c.fetchAt? n = some (.unknown b)) ∨
    (∃ op : Opcode, c.code[n]? = some op.byte ∧ c.size < n + 1 + op.width ∧
      c.fetchAt? n = some (.truncated op)) ∨
    ∃ i : Instr, c.code[n]? = some i.op.byte ∧ n + i.size ≤ c.size ∧
      c.fetchAt? n = some (.whole i) := by
  have hlt : n < c.code.length := h
  have hbyte : c.code[n]? = some c.code[n] := List.getElem?_eq_getElem hlt
  have hfetch := Machine.Indexed.fetchAt?_eq hlt
  cases hop : Opcode.ofByte? c.code[n] with
  | none =>
    left
    refine ⟨c.code[n], hbyte, ?_, by rw [hfetch, fetch, hop]⟩
    intro op hbyte'
    rw [Opcode.ofByte?_eq_some_iff.mpr hbyte'] at hop
    cases hop
  | some op =>
    right
    rw [Opcode.ofByte?_eq_some_iff.mp hop] at hbyte
    cases hoperand : Instr.readOperand? op.width 0 (c.code.drop (n + 1)) with
    | none =>
      left
      have hshort := Instr.length_lt_of_readOperand? hoperand
      rw [List.length_drop] at hshort
      refine ⟨op, hbyte, ?_, by simp only [hfetch, fetch, hop, hoperand]⟩
      unfold size
      omega
    | some k =>
      right
      have hwhole : c.fetchAt? n = some (.whole ⟨op, k⟩) := by
        simp only [hfetch, fetch, hop, hoperand]
      exact ⟨⟨op, k⟩, hbyte, add_size_le_of_fetchAt? hwhole, hwhole⟩

/-- The operation at an offset has an operand that the code ends before. -/
def CutShort (c : Chunk) (n : Nat) (op : Opcode) : Prop :=
  c.code[n]? = some op.byte ∧ c.size < n + 1 + op.width

/-- What is fetched is truncated just when the operand is cut short. -/
theorem fetchAt?_eq_truncated_iff {op : Opcode} :
    c.fetchAt? n = some (.truncated op) ↔ c.CutShort n op := by
  constructor
  · intro h
    rcases fetchAt?_cases (lt_size_of_fetchAt? h) with
      ⟨b, -, -, hf⟩ | ⟨op', hbyte, hshort, hf⟩ | ⟨i, -, -, hf⟩ <;> rw [h] at hf <;> cases hf
    exact ⟨hbyte, hshort⟩
  · rintro ⟨hbyte, hshort⟩
    have hlt : n < c.code.length := (List.getElem?_eq_some_iff.mp hbyte).1
    rcases fetchAt?_cases hlt with ⟨b, hb, hnone, -⟩ | ⟨op', hb, -, hf⟩ | ⟨i, hb, hend, -⟩ <;>
      rw [hbyte] at hb <;> have hb := Option.some.inj hb
    · exact absurd hb.symm (hnone op)
    · rw [hf, Opcode.byte_inj.mp hb]
    · rw [Opcode.byte_inj.mp hb] at hshort
      simp only [Instr.size] at hend
      omega

/-- An instruction that is fetched whole begins with the byte of its opcode. -/
theorem byte_of_whole {i : Instr} (h : c.fetchAt? n = some (.whole i)) :
    c.code[n]? = some i.op.byte := by
  rcases fetchAt?_cases (lt_size_of_fetchAt? h) with
    ⟨b, -, -, hf⟩ | ⟨op, -, -, hf⟩ | ⟨j, hbyte, -, hf⟩ <;> rw [h] at hf <;> cases hf
  exact hbyte

/-- The first byte of an instruction tells its opcode. -/
theorem byte_eq_iff_of_whole {i : Instr} (h : c.fetchAt? n = some (.whole i)) (op : Opcode) :
    c.code[n]? = some op.byte ↔ i.op = op := by
  rw [byte_of_whole h, Option.some.injEq, Opcode.byte_inj]

/-! ## The verifier at an offset -/

/-- What the verifier makes of what it finds at an offset. -/
theorem defectFrom?_of_fetchAt? {f : Fetched} (h : c.fetchAt? n = some f) :
    c.defectFrom? n =
      match f with
      | .unknown b => some (.unknown n b)
      | .truncated op => some (.truncated n op)
      | .whole i =>
        match instrDefect? c.consts.length c.size n i with
        | some d => some d
        | none => c.defectFrom? (n + i.size) := by
  cases f with
  | whole i => exact defectFrom?_of_whole h
  | unknown b | truncated op =>
    have hdrop := List.drop_eq_getElem_cons (lt_size_of_fetchAt? h)
    rw [fetchAt?, hdrop] at h
    rw [defectFrom?, hdrop, codeDefect?, Option.some.inj h]

/-- Behind the end of the code there is nothing to find. -/
theorem defectFrom?_of_le (h : c.size ≤ n) : c.defectFrom? n = none := by
  have hend : c.code.drop n = [] := List.drop_eq_nil_of_le h
  rw [defectFrom?, hend, codeDefect?]

/-- A whole instruction is never reported as truncated. -/
theorem instrDefect?_ne_truncated (count size offset : Nat) (i : Instr) (m : Nat) (op : Opcode) :
    instrDefect? count size offset i ≠ some (.truncated m op) := by
  unfold instrDefect?
  split
  · split <;> simp
  · simp only
    split <;> simp
  · simp
  · simp

/-- A truncated operand is reported for the offset of its instruction, which the verifier has
reached by then. -/
theorem le_of_codeDefect? {count size skip offset m : Nat} {bs : Bytes} {op : Opcode}
    (h : codeDefect? count size skip offset bs = some (.truncated m op)) : offset + skip ≤ m := by
  fun_induction codeDefect? count size skip offset bs with
  | case1 => cases h
  | case2 skip offset b rest ih =>
    have hle := ih h
    omega
  | case3 => cases h
  | case4 =>
    cases h
    exact Nat.le_refl _
  | case5 offset b rest i hfetch d hdefect =>
    obtain rfl := Option.some.inj h
    exact absurd hdefect (instrDefect?_ne_truncated _ _ _ _ _ _)
  | case6 offset b rest i hfetch hdefect ih =>
    have hle := ih h
    omega

/-- The verifier reports an operand as truncated just when what is fetched is. -/
theorem defectFrom?_eq_truncated_iff {op : Opcode} :
    c.defectFrom? n = some (.truncated n op) ↔ c.fetchAt? n = some (.truncated op) := by
  constructor
  · intro h
    cases hfetch : c.fetchAt? n with
    | none =>
      rw [defectFrom?_of_le (fetchAt?_eq_none_iff.mp hfetch)] at h
      cases h
    | some f =>
      rw [defectFrom?_of_fetchAt? hfetch] at h
      cases f with
      | unknown b => cases h
      | truncated op' =>
        cases h
        rfl
      | whole i =>
        dsimp only at h
        split at h
        · rename_i d hdefect
          obtain rfl := Option.some.inj h
          exact absurd hdefect (instrDefect?_ne_truncated _ _ _ _ _ _)
        · -- an instruction further on is not the one at this offset
          have hle := le_of_codeDefect? h
          simp only [Instr.size] at hle
          omega
  · intro h
    rw [defectFrom?_of_fetchAt? h]

end Chunk

/-! ## The machine at an offset -/

/-- A stack with a top value is one that the value was pushed on. -/
theorem Stack.top?_eq_some_iff {s : Stack} {v : Value} :
    s.top? = some v ↔ ∃ below : Stack, s = below.push v := by
  constructor
  · intro h
    obtain ⟨vs, hvalues⟩ := List.head?_eq_some_iff.mp h
    exact ⟨⟨vs, vs.length, rfl⟩, ext_values hvalues⟩
  · rintro ⟨below, rfl⟩
    rfl

namespace Machine

variable {κ : Type} [Sink κ] {o : Options} {c : Chunk} {s t : State κ}

/-- No instruction traps as truncated once it is performed. -/
theorem perform_ne_truncated (o : Options) (consts : List Value) (i : Instr) (s : Stack) (k : κ)
    (op : Opcode) : perform o consts i s k ≠ .error (.truncated op) := by
  intro h
  have hperformed := performed o consts i s k
  rw [h] at hperformed
  cases hperformed with
  | unsuited _ _ _ hfault => simp [Trap.fault] at hfault

/-- The machine traps on a truncated operand just when what is fetched is. -/
theorem turn_eq_truncated_iff {op : Opcode} :
    turn o c s = s.trapped c (.truncated op) ↔ c.fetchAt? s.offset = some (.truncated op) := by
  constructor
  · intro h
    rcases turn_eq_fault h with ⟨-, he⟩ | ⟨-, ⟨b, -, he⟩ | ⟨op', hfetch, he⟩ | ⟨i, -, hperform⟩⟩
    · cases he
    · cases he
    · cases he
      exact hfetch
    · exact absurd hperform (perform_ne_truncated _ _ _ _ _ _)
  · intro h
    rw [turn, h]

/-- The instruction at a state jumps: always, or because the top of the stack counts as false. -/
def Leaps (c : Chunk) (s : State κ) : Prop :=
  c.code[s.offset]? = some Opcode.jump.byte ∨
    c.code[s.offset]? = some Opcode.jumpIfFalse.byte ∧
      ∃ v, s.stack.top? = some v ∧ v.isTruthy = false

/-- Performing an instruction leaps for a jump, and for a conditional one if the top of the stack
counts as false. -/
theorem perform_eq_leap_iff {consts : List Value} {i : Instr} {s : Stack} {k : κ} :
    (∃ stack, perform o consts i s k = .ok (.leap stack)) ↔
      i.op = .jump ∨ i.op = .jumpIfFalse ∧ ∃ v, s.top? = some v ∧ v.isTruthy = false := by
  obtain ⟨op, operand⟩ := i
  constructor
  · rintro ⟨stack, h⟩
    have hperformed := performed o consts ⟨op, operand⟩ s k
    rw [h] at hperformed
    cases hperformed with
    | leap hop _ =>
      refine hop.imp_right fun hop => ⟨hop, ?_⟩
      obtain rfl : op = .jumpIfFalse := hop
      rw [perform] at h
      rcases taking_cases (κ := κ) .jumpIfFalse s
          (fun v _ => .ok (if v.isTruthy then .next s k else .leap s)) with
        ⟨-, heq⟩ | ⟨v, below, hs, heq⟩
      · rw [heq] at h
        cases h
      · rw [heq] at h
        refine ⟨v, Stack.top?_eq_some_iff.mpr ⟨below, hs⟩, ?_⟩
        by_contra htrue
        rw [Bool.not_eq_false] at htrue
        rw [htrue] at h
        cases h
  · rintro (hop | ⟨hop, v, hv, hfalse⟩)
    · obtain rfl : op = .jump := hop
      exact ⟨s, rfl⟩
    · obtain rfl : op = .jumpIfFalse := hop
      obtain ⟨below, rfl⟩ := Stack.top?_eq_some_iff.mp hv
      exact ⟨below.push v, by simp [perform, hfalse]⟩

/-- A state leaps, by its bytes, just when performing its instruction does. -/
theorem leaps_iff {i : Instr} (h : c.fetchAt? s.offset = some (.whole i)) :
    Leaps c s ↔ ∃ stack, perform o c.consts i s.stack s.console = .ok (.leap stack) := by
  rw [perform_eq_leap_iff, Leaps, Chunk.byte_eq_iff_of_whole h, Chunk.byte_eq_iff_of_whole h]

/-- Where a turn goes on: after the instruction, or as far on as it jumps. -/
theorem offset_of_go (h : turn o c s = .go t) :
    ∃ i, c.fetchAt? s.offset = some (.whole i) ∧
      (¬Leaps c s → t.offset = s.offset + i.size) ∧
      (Leaps c s → i.op ∈ Chunk.leaps ∧ t.offset = s.offset + i.size + i.operand) := by
  obtain ⟨i, hfetch, hmove⟩ := turn_eq_go h
  refine ⟨i, hfetch, ?_⟩
  rcases hmove with ⟨hperform, hoffset⟩ | ⟨hperform, hoffset, -⟩
  · refine ⟨fun _ => hoffset, ?_⟩
    intro hleaps
    obtain ⟨stack, hstack⟩ := (leaps_iff hfetch).mp hleaps
    rw [hperform] at hstack
    cases hstack
  · have hleaps : Leaps c s := (leaps_iff hfetch).mpr ⟨t.stack, hperform⟩
    refine ⟨fun hnot => absurd hleaps hnot, fun _ => ⟨?_, hoffset⟩⟩
    rcases perform_eq_leap_iff.mp ⟨t.stack, hperform⟩ with hop | ⟨hop, -⟩ <;>
      simp [Chunk.leaps, hop]

/-- A jump that is not cut short is made. -/
theorem exists_go_of_leaps (h : Leaps c s) (hwhole : ∀ op, ¬c.CutShort s.offset op) :
    ∃ t, turn o c s = .go t := by
  obtain ⟨op, hbyte⟩ : ∃ op : Opcode, c.code[s.offset]? = some op.byte := by
    rcases h with hbyte | ⟨hbyte, -⟩ <;> exact ⟨_, hbyte⟩
  have hlt : s.offset < c.size := (List.getElem?_eq_some_iff.mp hbyte).1
  rcases Chunk.fetchAt?_cases hlt with ⟨b, hb, hnone, -⟩ | ⟨op', hb, hshort, -⟩ | ⟨i, -, -, hfetch⟩
  · rw [hbyte] at hb
    exact absurd (Option.some.inj hb).symm (hnone op)
  · exact absurd ⟨hb, hshort⟩ (hwhole op')
  · obtain ⟨stack, hperform⟩ := (leaps_iff (o := o) hfetch).mp h
    rw [turn_of_fetchAt? hfetch, hperform]
    exact ⟨_, rfl⟩

end Machine

/-! ## What the verifier passes -/

namespace Chunk

/-- Nothing is wrong at an offset, by its bytes and by what its line in a listing says. -/
structure Passable (c : Chunk) (n : Nat) (text : String) : Prop where
  /-- The operation is known. -/
  known : ∃ op : Opcode, c.code[n]? = some op.byte
  /-- Its operand is all there. -/
  whole : ¬ReportsTruncated text
  /-- A constant that is named exists. -/
  constant : c.code[n]? = some Opcode.const.byte →
    ∃ b, c.code[n + 1]? = some b ∧ b.toNat < c.consts.length
  /-- A jump does not leave the code. -/
  target : ∀ target, ShowsTarget text target → target ≤ c.size

section

variable {c : Chunk} {n : Nat} {f : Fetched} {i : Instr} {stops : List (Nat × String)}

/-- A whole instruction has no defect just when its constant exists and its jump ends within the
code. -/
theorem instrDefect?_eq_none_iff {count size : Nat} :
    instrDefect? count size n i = none ↔
      (i.op = .const → i.operand < count) ∧ (i.op ∈ leaps → n + i.size + i.operand ≤ size) := by
  obtain ⟨op, operand⟩ := i
  cases op <;> simp [instrDefect?, leaps]

/-- The operand of a constant is the byte after it. -/
theorem exists_operand_of_const (h : c.fetchAt? n = some (.whole i)) (hop : i.op = .const) :
    ∃ b, c.code[n + 1]? = some b ∧ b.toNat = i.operand := by
  obtain ⟨b, hread, hb⟩ := Machine.Indexed.read_operand_one h (by rw [hop]; rfl)
  exact ⟨b, Machine.Indexed.read_eq_ok_iff.mp (by exact_mod_cast hread), hb⟩

/-- Nothing is wrong at an offset exactly when the verifier finds a whole instruction there, and no
defect in it. -/
theorem passable_iff (h : c.fetchAt? n = some f) :
    c.Passable n (instrLine c.consts n (c.lineBefore? n) (c.lineOf n) f) ↔
      ∃ i, f = .whole i ∧ instrDefect? c.consts.length c.size n i = none := by
  constructor
  · intro hpass
    rcases fetchAt?_cases (lt_size_of_fetchAt? h) with
      ⟨b, hb, hnone, -⟩ | ⟨op, -, -, hf⟩ | ⟨i, -, -, hf⟩
    · obtain ⟨op, hop⟩ := hpass.known
      rw [hb] at hop
      exact absurd (Option.some.inj hop) (hnone op)
    · obtain rfl := Option.some.inj (h.symm.trans hf)
      exact absurd ((reportsTruncated_iff _ _ _ _).mpr ⟨op, rfl⟩) hpass.whole
    · obtain rfl := Option.some.inj (h.symm.trans hf)
      refine ⟨i, rfl, instrDefect?_eq_none_iff.mpr ⟨?_, ?_⟩⟩
      · intro hop
        obtain ⟨b, hb, hlt⟩ := hpass.constant ((byte_eq_iff_of_whole h _).mpr hop)
        obtain ⟨b', hb', hoperand⟩ := exists_operand_of_const h hop
        obtain rfl := Option.some.inj (hb.symm.trans hb')
        rwa [← hoperand]
      · intro hop
        exact hpass.target _ ((showsTarget_iff _ _ _ _).mpr ⟨i, rfl, hop, rfl⟩)
  · rintro ⟨i, rfl, hsound⟩
    obtain ⟨hconst, hleap⟩ := instrDefect?_eq_none_iff.mp hsound
    refine ⟨⟨i.op, byte_of_whole h⟩, ?_, ?_, ?_⟩
    · intro hreports
      obtain ⟨op, hop⟩ := (reportsTruncated_iff _ _ _ _).mp hreports
      cases hop
    · intro hbyte
      have hop := (byte_eq_iff_of_whole h _).mp hbyte
      obtain ⟨b, hb, hoperand⟩ := exists_operand_of_const h hop
      exact ⟨b, hb, by rw [hoperand]; exact hconst hop⟩
    · intro target hshows
      obtain ⟨j, hj, hop, rfl⟩ := (showsTarget_iff _ _ _ _).mp hshows
      cases hj
      exact hleap hop

/-- Past something that can be passed, the verifier goes on where the next line begins. -/
theorem defectFrom?_of_passable (h : c.fetchAt? n = some f)
    (hpass : c.Passable n (instrLine c.consts n (c.lineBefore? n) (c.lineOf n) f)) :
    c.defectFrom? n = c.defectFrom? (c.nextLine n f) := by
  obtain ⟨i, rfl, hsound⟩ := (passable_iff h).mp hpass
  rw [defectFrom?_of_fetchAt? h]
  simp only [hsound, nextLine]

/-- The verifier finds no defect from an offset on exactly when all lines from there on can be
passed. -/
theorem Listed.defectFrom?_eq_none_iff (hlines : c.lines.length = c.code.length)
    (h : c.Listed n stops) : c.defectFrom? n = none ↔ ∀ p ∈ stops, c.Passable p.1 p.2 := by
  induction h with
  | done => simp [defectFrom?_of_le (Nat.le_refl c.size)]
  | @line n next text stops hinstr _ ih =>
    obtain ⟨f, hf, rfl, rfl⟩ := (instr?_eq_some_iff hlines).mp hinstr
    rw [List.forall_mem_cons, ← ih]
    constructor
    · intro hnone
      obtain ⟨i, hi, hsound, -⟩ := sound_of_defectFrom? hnone (lt_size_of_fetchAt? hf)
      have hpass := (passable_iff hf).mpr ⟨i, Option.some.inj (hf.symm.trans hi), hsound⟩
      exact ⟨hpass, by rw [← defectFrom?_of_passable hf hpass, hnone]⟩
    · rintro ⟨hpass, hnone⟩
      rw [defectFrom?_of_passable hf hpass, hnone]

/-- The verifier comes to an offset when all lines before it can be passed. -/
theorem Listed.defectFrom?_eq (hlines : c.lines.length = c.code.length) (h : c.Listed n stops)
    {before after : List (Nat × String)} {m : Nat} {text : String}
    (hstops : stops = before ++ (m, text) :: after)
    (hpass : ∀ p ∈ before, c.Passable p.1 p.2) : c.defectFrom? n = c.defectFrom? m := by
  induction h generalizing before with
  | done => simp at hstops
  | @line n next text' stops hinstr _ ih =>
    rcases before with _ | ⟨p, before⟩
    · simp only [List.nil_append, List.cons.injEq, Prod.mk.injEq] at hstops
      rw [hstops.1.1]
    · simp only [List.cons_append, List.cons.injEq] at hstops
      obtain ⟨rfl, hstops⟩ := hstops
      rw [List.forall_mem_cons] at hpass
      obtain ⟨f, hf, rfl, rfl⟩ := (instr?_eq_some_iff hlines).mp hinstr
      rw [defectFrom?_of_passable hf hpass.1, ih hstops hpass.2]

/-- If every byte has a line, the verifier looks at the code from its beginning. -/
theorem defect?_eq (hlines : c.lines.length = c.code.length) : c.defect? = c.defectFrom? 0 := by
  rw [defect?, if_neg (not_not.mpr hlines.symm)]
  rfl

end

end Chunk

/-! ## The listing and the verifier by indices -/

namespace Machine.Indexed

/-- Where the line after that of an offset begins. -/
def following (c : Chunk) (offset : Nat) : Except Breakdown Nat := do
  let b ← read c.code offset
  match Opcode.ofByte? b with
  | none => return offset + 1
  | some op =>
    if c.code.length ≤ offset + op.width then return c.code.length
    else
      match op with
      | .const => return offset + 2
      | .jump | .jumpIfFalse => return offset + 3
      | _ => return offset + 1

/-- The line of the listing for an offset, and where the next one begins. -/
def instr (c : Chunk) (offset : Nat) : Except Breakdown (String × Nat) := do
  let text ← listed c offset
  let next ← following c offset
  return (text, next)

/-- What is wrong with the instruction at an offset, which ends at `next`. -/
def flaw (c : Chunk) (offset next : Nat) : Opcode → Except Breakdown (Option Chunk.Defect)
  | .const => do
    let index ← read c.code (offset + 1)
    if c.consts.length ≤ index.toNat then
      return some (.constant offset index.toNat c.consts.length)
    else return none
  | .jump | .jumpIfFalse => do
    let n ← distance c (offset + 1)
    if c.code.length < next + n then return some (.target offset (next + n)) else return none
  | _ => return none

/-- What is wrong at an offset, or else where the next instruction begins. -/
def check (c : Chunk) (offset : Nat) : Except Breakdown (Except Chunk.Defect Nat) := do
  let b ← read c.code offset
  match Opcode.ofByte? b with
  | none => return .error (.unknown offset b)
  | some op =>
    let next := offset + 1 + op.width
    if c.code.length < next then return .error (.truncated offset op)
    else
      match ← flaw c offset next op with
      | some d => return .error d
      | none => return .ok next

/-- Checks the code from an offset on. The first argument is the number of instructions allowed. -/
def checkFrom (c : Chunk) : Nat → Nat → Except Breakdown (Option Chunk.Defect)
  | allowed, offset =>
    if c.code.length ≤ offset then return none
    else
      match allowed with
      | 0 => .error .unfinished
      | allowed + 1 => do
        match ← check c offset with
        | .error d => return some d
        | .ok next => checkFrom c allowed next

/-- Verifies a chunk, with a number of instructions allowed. -/
def verify (c : Chunk) (allowed : Nat) : Except Breakdown (Option Chunk.Defect) :=
  if c.code.length ≠ c.lines.length then
    return some (.lineMap c.lines.length c.code.length)
  else checkFrom c allowed 0

variable {c : Chunk} {n : Nat} {f : Fetched} {i : Instr}

/-- What the first byte at an offset and the length of the code tell about what stands there. -/
theorem read_of_fetchAt? (h : c.fetchAt? n = some f) :
    ∃ b, read c.code n = .ok b ∧
      match f with
      | .unknown b' => b = b' ∧ Opcode.ofByte? b = none
      | .truncated op => Opcode.ofByte? b = some op ∧ c.code.length < n + 1 + op.width
      | .whole i => Opcode.ofByte? b = some i.op ∧ n + 1 + i.op.width ≤ c.code.length := by
  rcases Chunk.fetchAt?_cases (Chunk.lt_size_of_fetchAt? h) with
    ⟨b, hb, hnone, hf⟩ | ⟨op, hb, hshort, hf⟩ | ⟨i, hb, hend, hf⟩
  all_goals
    obtain rfl := Option.some.inj (h.symm.trans hf)
    refine ⟨_, read_eq_ok_iff.mpr hb, ?_⟩
  · refine ⟨rfl, Option.eq_none_iff_forall_ne_some.mpr fun op hop => ?_⟩
    exact hnone op (Opcode.ofByte?_eq_some_iff.mp hop)
  · exact ⟨Opcode.ofByte?_byte op, hshort⟩
  · simp only [Instr.size, Chunk.size] at hend
    exact ⟨Opcode.ofByte?_byte i.op, by omega⟩

/-- By indices the next line of a listing begins where the listing says. -/
theorem following_eq (h : c.fetchAt? n = some f) : following c n = .ok (c.nextLine n f) := by
  obtain ⟨b, hread, hf⟩ := read_of_fetchAt? h
  rw [following, hread]
  dsimp only [bind, Except.bind]
  cases f with
  | unknown b' =>
    rw [hf.2]
    rfl
  | truncated op =>
    obtain ⟨hop, hshort⟩ := hf
    rw [hop]
    dsimp only
    rw [if_pos (by omega)]
    rfl
  | whole i =>
    obtain ⟨hop, hend⟩ := hf
    rw [hop]
    dsimp only
    rw [if_neg (by omega), Chunk.nextLine]
    obtain ⟨op, operand⟩ := i
    cases op <;> rfl

/-- By indices a line of a listing is the one that the listing has. -/
theorem instr_eq (hlines : c.lines.length = c.code.length) {text : String} {next : Nat}
    (h : c.instr? n = some (text, next)) : instr c n = .ok (text, next) := by
  obtain ⟨f, hf, rfl, rfl⟩ := (Chunk.instr?_eq_some_iff hlines).mp h
  rw [instr, listed_eq hlines (Chunk.lt_size_of_fetchAt? hf) hf, following_eq hf]
  rfl

/-- By indices the flaw of a whole instruction is its defect. -/
theorem flaw_eq (h : c.fetchAt? n = some (.whole i)) :
    flaw c n (n + i.size) i.op = .ok (Chunk.instrDefect? c.consts.length c.size n i) := by
  obtain ⟨op, operand⟩ := i
  cases op
  case const =>
    obtain ⟨b, hread, hb⟩ := read_operand_one h rfl
    have hb : b.toNat = operand := hb
    rw [flaw, hread]
    dsimp only [bind, Except.bind, Chunk.instrDefect?]
    rw [hb]
    split <;> rfl
  case jump | jumpIfFalse =>
    rw [flaw, distance_eq h rfl]
    dsimp only [bind, Except.bind, Chunk.instrDefect?, Chunk.size]
    split <;> rfl
  all_goals rfl

/-- By indices an offset is checked as the verifier checks what is fetched there. -/
theorem check_eq (h : c.fetchAt? n = some f) :
    check c n = .ok
      (match f with
      | .unknown b => .error (.unknown n b)
      | .truncated op => .error (.truncated n op)
      | .whole i =>
        match Chunk.instrDefect? c.consts.length c.size n i with
        | some d => .error d
        | none => .ok (n + i.size)) := by
  obtain ⟨b, hread, hf⟩ := read_of_fetchAt? h
  rw [check, hread]
  dsimp only [bind, Except.bind]
  cases f with
  | unknown b' =>
    obtain ⟨rfl, hop⟩ := hf
    rw [hop]
    rfl
  | truncated op =>
    obtain ⟨hop, hshort⟩ := hf
    rw [hop]
    dsimp only
    rw [if_pos hshort]
    rfl
  | whole i =>
    obtain ⟨hop, hend⟩ := hf
    have hnext : n + 1 + i.op.width = n + i.size := by
      simp only [Instr.size]
      omega
    rw [hop]
    dsimp only
    rw [if_neg (Nat.not_lt.mpr hend), hnext, flaw_eq h]
    cases Chunk.instrDefect? c.consts.length c.size n i <;> rfl

/-- From any offset, the verifier by indices finds what the verifier finds, if it is allowed as many
instructions as there are bytes left. -/
theorem checkFrom_eq (allowed n : Nat) (hallowed : c.code.length ≤ n + allowed) :
    checkFrom c allowed n = .ok (c.defectFrom? n) := by
  induction allowed generalizing n with
  | zero =>
    rw [Nat.add_zero] at hallowed
    rw [checkFrom, if_pos hallowed, Chunk.defectFrom?_of_le hallowed]
    rfl
  | succ allowed ih =>
    by_cases hend : c.code.length ≤ n
    · rw [checkFrom, if_pos hend, Chunk.defectFrom?_of_le hend]
      rfl
    · obtain ⟨f, hf⟩ := Chunk.exists_fetchAt? (Nat.lt_of_not_le hend)
      rw [checkFrom, if_neg hend, check_eq hf, Chunk.defectFrom?_of_fetchAt? hf]
      dsimp only [bind, Except.bind]
      cases f with
      | unknown b => rfl
      | truncated op => rfl
      | whole i =>
        dsimp only
        cases Chunk.instrDefect? c.consts.length c.size n i with
        | some d => rfl
        | none => exact ih (n + i.size) (by simp only [Instr.size]; omega)

/-- By indices a chunk is verified as the verifier does it, within as many instructions as there are
bytes. -/
theorem verify_eq (c : Chunk) : verify c c.size = .ok c.defect? := by
  unfold verify Chunk.defect?
  split
  · rfl
  · rw [checkFrom_eq c.size 0 (by simp [Chunk.size])]
    rfl

end Machine.Indexed

/-! ## Agreement -/

namespace Chunk

open Machine

/-- The three readers of code agree on what stands at an offset, where a listing says `text` and
goes on at `next`. -/
structure Agreement (c : Chunk) (n : Nat) (text : String) (next : Nat) : Prop where
  /-- A listing moves forward. -/
  forward : n < next
  /-- A listing stays within the code. -/
  within : next ≤ c.size
  /-- The listing reports exactly the operands that are cut short. -/
  listing : ReportsTruncated text ↔ ∃ op, c.CutShort n op
  /-- So does the verifier when it comes to the offset. -/
  verifier : ∀ op, c.defectFrom? n = some (.truncated n op) ↔ c.CutShort n op
  /-- So does the machine, whatever is on its stack. -/
  machine : ∀ {κ : Type} [Sink κ] (o : Options) (s : State κ), s.offset = n →
    ∀ op, turn o c s = s.trapped c (.truncated op) ↔ c.CutShort n op
  /-- The machine goes on at the next line when it does not jump. -/
  straight : ∀ {κ : Type} [Sink κ] (o : Options) (s t : State κ), s.offset = n →
    turn o c s = .go t → ¬Leaps c s → t.offset = next
  /-- When it jumps, it goes on at the target that is shown. -/
  jump : ∀ {κ : Type} [Sink κ] (o : Options) (s : State κ), s.offset = n → Leaps c s →
    ¬ReportsTruncated text →
    ∃ t, turn o c s = .go t ∧ ∀ target, ShowsTarget text target ↔ target = t.offset
  /-- The listing by indices has the same line. -/
  listed : Indexed.instr c n = .ok (text, next)
  /-- The machine by indices makes the same turn. -/
  stepped : ∀ {κ : Type} [Sink κ] (o : Options) (s : State κ), s.offset = n →
    Indexed.step o c n (Indexed.slots s.stack) s.console = .ok (.ofTurn (turn o c s))

variable {c : Chunk} {n : Nat} {f : Fetched}

/-- A line of a listing reports a truncated operand just when the operand is cut short. -/
theorem reportsTruncated_iff_cutShort (h : c.fetchAt? n = some f) :
    ReportsTruncated (instrLine c.consts n (c.lineBefore? n) (c.lineOf n) f) ↔
      ∃ op, c.CutShort n op := by
  rw [reportsTruncated_iff]
  refine exists_congr fun op => ?_
  rw [← fetchAt?_eq_truncated_iff, h, Option.some.injEq]

/-- Where the machine goes on is what the line at its offset says. -/
theorem line_of_go {κ : Type} [Sink κ] {o : Options} {s t : State κ}
    (h : c.fetchAt? s.offset = some f) (hturn : turn o c s = .go t) :
    (¬Leaps c s → t.offset = c.nextLine s.offset f) ∧
      (Leaps c s → ∀ target,
        ShowsTarget (instrLine c.consts s.offset (c.lineBefore? s.offset) (c.lineOf s.offset) f)
          target ↔ target = t.offset) := by
  obtain ⟨i, hi, hstraight, hjump⟩ := offset_of_go hturn
  obtain rfl := Option.some.inj (h.symm.trans hi)
  refine ⟨hstraight, ?_⟩
  intro hleaps target
  obtain ⟨hop, hoffset⟩ := hjump hleaps
  rw [showsTarget_iff, hoffset]
  constructor
  · rintro ⟨j, hj, -, htarget⟩
    cases hj
    exact htarget
  · intro htarget
    exact ⟨i, rfl, hop, htarget⟩

/-- The three readers agree at every offset from which something can be fetched. -/
theorem agreement (hlines : c.lines.length = c.code.length) (h : c.fetchAt? n = some f) :
    c.Agreement n (instrLine c.consts n (c.lineBefore? n) (c.lineOf n) f) (c.nextLine n f) where
  forward := (lt_nextLine h).1
  within := (lt_nextLine h).2
  listing := reportsTruncated_iff_cutShort h
  verifier := by
    intro op
    rw [defectFrom?_eq_truncated_iff, fetchAt?_eq_truncated_iff]
  machine := by
    rintro κ _ o s rfl op
    rw [turn_eq_truncated_iff, fetchAt?_eq_truncated_iff]
  straight := by
    rintro κ _ o s t rfl hturn
    exact (line_of_go h hturn).1
  jump := by
    rintro κ _ o s rfl hleaps hwhole
    rw [reportsTruncated_iff_cutShort h, not_exists] at hwhole
    obtain ⟨t, hturn⟩ := exists_go_of_leaps (o := o) hleaps hwhole
    exact ⟨t, hturn, (line_of_go h hturn).2 hleaps⟩
  listed := Indexed.instr_eq hlines (instr?_eq hlines h)
  stepped := by
    rintro κ _ o ⟨_, stack, k⟩ rfl
    exact Indexed.step_eq hlines (lt_size_of_fetchAt? h)

/-- The listing, the verifier and the machine agree. At every offset within the code they agree on
what stands there. From the start on, a listing covers the code line by line, and the verifier
passes the code exactly when each of those lines can be passed; it looks at each line that has only
such lines before it. By indices it does the same. -/
theorem decoders_agree (hlines : c.lines.length = c.code.length) :
    (∀ n < c.size, ∃ text next, c.instr? n = some (text, next) ∧ c.Agreement n text next) ∧
    (∃ stops, c.Listed 0 stops ∧
      (∀ name, c.listing name = Text.join (s!"== {name} ==\n" :: stops.map fun p => p.2 ++ "\n")) ∧
      (∀ m < c.size,
        ∃ p ∈ stops, ∃ next, c.instr? p.1 = some (p.2, next) ∧ p.1 ≤ m ∧ m < next) ∧
      (c.defect? = none ↔ ∀ p ∈ stops, c.Passable p.1 p.2) ∧
      ∀ before n text after, stops = before ++ (n, text) :: after →
        (∀ p ∈ before, c.Passable p.1 p.2) → c.defect? = c.defectFrom? n) ∧
    Indexed.verify c c.size = .ok c.defect? := by
  refine ⟨?_, ?_, Indexed.verify_eq c⟩
  · intro n hn
    obtain ⟨f, hf⟩ := exists_fetchAt? hn
    exact ⟨_, _, instr?_eq hlines hf, agreement hlines hf⟩
  · obtain ⟨stops, hstops⟩ := exists_listed hlines (Nat.zero_le c.size)
    refine ⟨stops, hstops, listing_eq hlines hstops, ?_, ?_, ?_⟩
    · intro m hm
      exact hstops.covers (Nat.zero_le m) hm
    · rw [defect?_eq hlines]
      exact hstops.defectFrom?_eq_none_iff hlines
    · intro before n text after hsplit hpass
      rw [defect?_eq hlines]
      exact hstops.defectFrom?_eq hlines hsplit hpass

/-- Code with an unknown byte, a conditional jump into the middle of a constant, and a jump of which
the last byte is missing. -/
def ragged : Chunk :=
  (empty.addConst .nil).write [0xFF, 17, 0, 1, 1, 0, 16, 0] 1

/-- They agree on the conditional jump, and on the jump that is cut short. -/
theorem decoders_agree_ragged : ragged.lines.length = ragged.code.length ∧
    ragged.Agreement 1 "0001    | OpJumpIfFalse       1 -> 5" 4 ∧
    ragged.Agreement 6 "0006    | OpJump           <truncated>" 8 := by
  have hagree := (decoders_agree (c := ragged) rfl).1
  refine ⟨rfl, ?_, ?_⟩
  · obtain ⟨text, next, hinstr, h⟩ := hagree 1 (by decide)
    have hline : ragged.instr? 1 = some ("0001    | OpJumpIfFalse       1 -> 5", 4) := by decide
    obtain ⟨rfl, rfl⟩ := Prod.mk.inj (Option.some.inj (hinstr.symm.trans hline))
    exact h
  · obtain ⟨text, next, hinstr, h⟩ := hagree 6 (by decide)
    have hline : ragged.instr? 6 = some ("0006    | OpJump           <truncated>", 8) := by decide
    obtain ⟨rfl, rfl⟩ := Prod.mk.inj (Option.some.inj (hinstr.symm.trans hline))
    exact h

end Chunk

end Lox
