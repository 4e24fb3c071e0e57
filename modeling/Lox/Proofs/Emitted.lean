import Lox.Compile
import Mathlib.Tactic.Common

/-!
# Code as bytes

Code is a list of instructions; a chunk holds their bytes. What is fetched from the bytes is the
instruction that was written (`fetch_encode`), as long as its operand fits the opcode's width, and
the number of bytes of an expression's code is its size (`length_bytes_codeThen`), which is what
jumps rely on.
-/

namespace Lox

namespace Instr

/-- The operand of an instruction fits its bytes. -/
def Fits (i : Instr) : Prop :=
  i.operand < Nat.pow 256 i.op.width

/-- An operand is read back from its bytes, as far as these can hold it. -/
theorem readOperand?_operandBytes (n k m : Nat) (rest : Bytes) :
    readOperand? n k (operandBytes n m ++ rest) =
      some (k * Nat.pow 256 n + m % Nat.pow 256 n) := by
  induction n generalizing k with
  | zero => simp [readOperand?, Nat.mod_one]
  | succ n ih =>
    rw [operandBytes, List.cons_append, readOperand?, ih, UInt8.toNat_ofNat']
    have hpow : Nat.pow 256 (n + 1) = Nat.pow 256 n * 256 := rfl
    rw [hpow, Nat.mod_mul, Nat.add_mul, Nat.mul_assoc, Nat.mul_comm 256 (Nat.pow 256 n),
      Nat.mul_comm (m / Nat.pow 256 n % 256)]
    congr 1
    omega

end Instr

/-- An instruction that was written is fetched. -/
theorem fetch_encode {i : Instr} (h : i.Fits) (rest : Bytes) :
    ∃ bs, i.encode ++ rest = i.op.byte :: bs ∧ fetch i.op.byte bs = .whole i := by
  refine ⟨Instr.operandBytes i.op.width i.operand ++ rest, rfl, ?_⟩
  simp only [fetch, Opcode.ofByte?_byte, Instr.readOperand?_operandBytes]
  rw [Nat.zero_mul, Nat.zero_add, Nat.mod_eq_of_lt h]

namespace Code

/-- The bytes of some code. -/
def bytes (k : Code) : Bytes :=
  k.placed.flatMap fun p => p.instr.encode

/-- The line of each byte of some code. -/
def lines (k : Code) : List Int :=
  k.placed.flatMap fun p => List.replicate p.instr.size p.line

/-- The bytes of the code are counted right. -/
def Counted (k : Code) : Prop :=
  k.size = k.bytes.length

/-- Code has a line for each of its bytes. -/
theorem length_lines (k : Code) : k.lines.length = k.bytes.length := by
  simp [bytes, lines, List.length_flatMap]

/-- Instructions are put in front one by one. -/
theorem prepend_cons (after : Code) (line : Int) (i : Instr) (is : List Instr) :
    after.prepend line (i :: is) = (after.prepend line is).prepend line [i] := by
  simp [prepend, sizeOfAll, Nat.add_assoc]

/-- Nothing put in front changes nothing. -/
@[simp] theorem prepend_nil (after : Code) (line : Int) : after.prepend line [] = after := by
  simp [prepend, sizeOfAll]

/-- The code that follows stands at the end. -/
theorem suffix_prepend (after : Code) (line : Int) (is : List Instr) :
    after.placed <:+ (after.prepend line is).placed :=
  List.suffix_append ..

/-- The bytes of an instruction in front come first. -/
theorem bytes_prepend (after : Code) (line : Int) (i : Instr) :
    (after.prepend line [i]).bytes = i.encode ++ after.bytes := rfl

/-- An instruction in front has its line for each of its bytes. -/
theorem lines_prepend (after : Code) (line : Int) (i : Instr) :
    (after.prepend line [i]).lines = List.replicate i.size line ++ after.lines := rfl

/-- The bytes of no code are counted right. -/
theorem counted_empty : Counted {} := rfl

/-- Instructions in front are counted. -/
theorem Counted.prepend {after : Code} (h : after.Counted) (line : Int) (is : List Instr) :
    (after.prepend line is).Counted := by
  induction is with
  | nil => simpa using h
  | cons i is ih =>
    rw [prepend_cons, Counted, bytes_prepend, List.length_append, Instr.length_encode, ← ih]
    rfl

end Code

namespace Expr

/-- The bytes of an expression's code are counted. -/
theorem counted_codeThen (pool : Pool) (e : Expr) {after : Code} (h : after.Counted) :
    (e.codeThen pool after).Counted := by
  induction e generalizing after with
  | literal c v => exact h.prepend ..
  | missing c => exact h
  | group c e closing ih => exact ih h
  | unary op c e ih => exact ih (h.prepend ..)
  | binary op c l r ihl ihr => exact ihl (ihr (h.prepend ..))
  | logic op c l r ihl ihr => exact ihl ((ihr h).prepend ..)

/-- An expression's code has as many bytes as its size says. -/
theorem length_bytes_codeThen (pool : Pool) (e : Expr) {after : Code} (h : after.Counted) :
    (e.codeThen pool after).bytes.length = e.size + after.bytes.length := by
  rw [← counted_codeThen pool e h, size_codeThen, h]

/-- An expression's code stands before what follows it, which is left as it is. -/
theorem suffix_codeThen (pool : Pool) (e : Expr) (after : Code) :
    after.placed <:+ (e.codeThen pool after).placed := by
  induction e generalizing after with
  | literal c v => exact after.suffix_prepend ..
  | missing c => exact List.suffix_rfl
  | group c e closing ih => exact ih after
  | unary op c e ih => exact (after.suffix_prepend ..).trans (ih _)
  | binary op c l r ihl ihr => exact (after.suffix_prepend ..).trans ((ihr _).trans (ihl _))
  | logic op c l r ihl ihr => exact (ihr after).trans ((Code.suffix_prepend ..).trans (ihl _))

end Expr

/-! ## Code in a chunk -/

/-- Code stands at an offset of a chunk. -/
structure Chunk.At (c : Chunk) (offset : Nat) (k : Code) : Prop where
  bytes : c.code.drop offset = k.bytes
  lines : c.lines.drop offset = k.lines

namespace Chunk

variable {c : Chunk} {n : Nat} {after : Code}

/-- Code stands at the beginning of the chunk that is made from it. -/
theorem at_ofCode (k : Code) (pool : Pool) : (ofCode k pool).At 0 k :=
  ⟨rfl, rfl⟩

/-- After an expression's code comes what follows it. -/
theorem At.codeThen {e : Expr} (h : c.At n (e.codeThen c.consts after)) (hafter : after.Counted) :
    c.At (n + e.size) after := by
  obtain ⟨placed, hplaced⟩ := e.suffix_codeThen c.consts after
  have hlength := e.length_bytes_codeThen c.consts hafter
  have hbytes : (e.codeThen c.consts after).bytes = Code.bytes ⟨placed, 0⟩ ++ after.bytes := by
    simp [Code.bytes, ← hplaced]
  have hlines : (e.codeThen c.consts after).lines = Code.lines ⟨placed, 0⟩ ++ after.lines := by
    simp [Code.lines, ← hplaced]
  have hsize : (Code.bytes ⟨placed, 0⟩).length = e.size := by
    rw [hbytes, List.length_append] at hlength
    omega
  constructor
  · rw [← List.drop_drop, h.bytes, hbytes, List.drop_left' hsize]
  · rw [← List.drop_drop, h.lines, hlines,
      List.drop_left' ((Code.length_lines _).trans hsize)]

end Chunk

end Lox
