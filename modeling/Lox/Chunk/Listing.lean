import Lox.Chunk.Basic
import Lox.Text.Column

/-!
# Listing a chunk

A listing has one line per instruction: its offset, the source line (or a bar when that is the
line of the byte before), the name of the opcode and what its operand means. An operand that is
cut short is said to be, and the listing ends there; a byte that is no opcode is listed by its
number.
-/

namespace Lox.Chunk

/-- The column of the source line. -/
def lineColumn (previous : Option Int) (line : Int) : String :=
  if previous = some line then "   | " else Text.padLeft 4 ' ' (toString line) ++ " "

/-- The column of an opcode that is followed by an operand. -/
def nameColumn (op : Opcode) : String :=
  Text.padRight 16 op.name ++ " "

/-- The column of an operand. -/
def operandColumn (n : Nat) : String :=
  Text.padLeft 4 ' ' (toString n)

/-- What stands at an offset of the code, in words. -/
def describe (consts : List Value) (offset : Nat) : Fetched → String
  | .unknown b => Opcode.nameOfByte b
  | .truncated op => nameColumn op ++ "<truncated>"
  | .whole i =>
    match i.op with
    | .const =>
      nameColumn i.op ++ operandColumn i.operand ++
        match consts[i.operand]? with
        | some v => s!" '{v.readable}'"
        | none => " <out of range>"
    | .jump | .jumpIfFalse =>
      nameColumn i.op ++ operandColumn offset ++ s!" -> {offset + i.size + i.operand}"
    | op => op.name

/-- One line of a listing, without its end. -/
def instrLine (consts : List Value) (offset : Nat) (previous : Option Int) (line : Int)
    (f : Fetched) : String :=
  Text.padLeft 4 '0' (toString offset) ++ " " ++ lineColumn previous line ++
    describe consts offset f

/-- The number of bytes after the first that a line of the listing covers, when `rest` follows:
an instruction cut short takes all that is left. -/
def coverage (rest : Bytes) : Fetched → Nat
  | .unknown _ => 0
  | .truncated _ => rest.length
  | .whole i => i.op.width

/-- The line of the listing for an offset, and the offset of the next one. Nothing is listed
outside the code. -/
def instr? (c : Chunk) (offset : Int) : Option (String × Nat) :=
  if offset < 0 then none
  else
    let n := offset.toNat
    match c.code.drop n, c.lines.drop n with
    | b :: rest, line :: _ =>
      let previous := if n = 0 then none else c.lines[n - 1]?
      let f := fetch b rest
      some (instrLine c.consts n previous line f, n + 1 + coverage rest f)
    | _, _ => none

/-- The lines of the listing of some code, last first, after passing over `skip` bytes. -/
def listFrom (consts : List Value) :
    Nat → Nat → Option Int → Bytes → List Int → List String → List String
  | _, _, _, [], _, seen => seen
  | _, _, _, _ :: _, [], seen => seen
  | skip + 1, offset, _, _ :: rest, line :: lines, seen =>
    listFrom consts skip (offset + 1) (some line) rest lines seen
  | 0, offset, previous, b :: rest, line :: lines, seen =>
    let f := fetch b rest
    listFrom consts (coverage rest f) (offset + 1) (some line) rest lines
      (instrLine consts offset previous line f :: seen)

/-- The listing of a chunk under a name. -/
def listing (c : Chunk) (name : String) : String :=
  let lines := (listFrom c.consts 0 0 none c.code c.lines []).reverse
  Text.join (s!"== {name} ==\n" :: lines.map (· ++ "\n"))

end Lox.Chunk
