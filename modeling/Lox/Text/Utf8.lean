/-!
# Byte strings read as UTF-8

Source texts, string values and image texts are byte strings, and nothing promises that they
are well-formed UTF-8. `Utf8.pieces` is the one reading of a byte string: a list of characters
and of bytes that belong to no well-formed sequence. Everything else is a view of it. `decode`
puts U+FFFD for each stray byte, `isValid` asks that there be none, and quoting spells a stray
byte by its number.

A sequence is well-formed when its trailing bytes are continuation bytes, its code point is a
Unicode scalar value, and no shorter sequence spells the same code point. A byte that starts no
such sequence is stray on its own; reading resumes at the very next byte.
-/

namespace Lox

/-- A string of raw bytes, which need not be well-formed UTF-8. -/
abbrev Bytes := List UInt8

namespace Utf8

/-- A unit of a byte string: a character, or a byte of no well-formed sequence. -/
inductive Piece where
  | char (c : Char)
  | stray (b : UInt8)
  deriving DecidableEq, Repr

/-- Reads `n` continuation bytes, adding six bits each to the code point `code`. -/
def trail : Nat → Nat → Bytes → Option Nat
  | 0, code, _ => some code
  | _ + 1, _, [] => none
  | n + 1, code, b :: rest =>
    if 0x80 ≤ b ∧ b < 0xC0 then trail n (code * 64 + (b.toNat - 0x80)) rest else none

/-- The shape a leading byte announces: the bits it carries, the number of continuation bytes,
and the least code point that needs so many. -/
def shape? (b : UInt8) : Option (Nat × Nat × Nat) :=
  if b < 0x80 then some (b.toNat, 0, 0)
  else if b < 0xC0 then none
  else if b < 0xE0 then some (b.toNat - 0xC0, 1, 0x80)
  else if b < 0xF0 then some (b.toNat - 0xE0, 2, 0x800)
  else if b < 0xF8 then some (b.toNat - 0xF0, 3, 0x10000)
  else none

/-- The character spelled by a well-formed sequence at the head, and the number of its
continuation bytes. -/
def leading? : Bytes → Option (Char × Nat)
  | [] => none
  | b :: rest =>
    match shape? b with
    | none => none
    | some (bits, n, least) =>
      match trail n bits rest with
      | none => none
      | some code =>
        if least ≤ code ∧ code.isValidChar then some (Char.ofNat code, n) else none

/-- `piecesFrom skip bs seen` reads `bs` after passing over `skip` continuation bytes that an
earlier character has used; `seen` holds the pieces read so far, last first. -/
def piecesFrom : Nat → Bytes → List Piece → List Piece
  | _, [], seen => seen.reverse
  | skip + 1, _ :: rest, seen => piecesFrom skip rest seen
  | 0, b :: rest, seen =>
    match leading? (b :: rest) with
    | some (c, n) => piecesFrom n rest (.char c :: seen)
    | none => piecesFrom 0 rest (.stray b :: seen)

/-- A byte string as characters and stray bytes. -/
def pieces (bs : Bytes) : List Piece :=
  piecesFrom 0 bs []

/-- The character that stands for a piece: U+FFFD for a stray byte. -/
def Piece.toChar : Piece → Char
  | .char c => c
  | .stray _ => '�'

/-- Whether a piece is a character. -/
def Piece.isChar : Piece → Bool
  | .char _ => true
  | .stray _ => false

/-- The characters of a byte string, with U+FFFD for each stray byte. -/
def decode (bs : Bytes) : List Char :=
  (pieces bs).map Piece.toChar

/-- Whether a byte string is well-formed UTF-8. -/
def isValid (bs : Bytes) : Bool :=
  (pieces bs).all Piece.isChar

/-- The byte of a line feed, which is a character of its own wherever it stands. -/
def lineFeed : UInt8 := 0x0A

/-- The UTF-8 spelling of a text. -/
def encode (cs : List Char) : Bytes :=
  cs.flatMap String.utf8EncodeChar

@[simp] theorem encode_nil : encode [] = [] := rfl

/-- A text is spelled character by character. -/
@[simp] theorem encode_cons (c : Char) (cs : List Char) :
    encode (c :: cs) = String.utf8EncodeChar c ++ encode cs := rfl

/-- Two texts are spelled one after the other. -/
theorem encode_append (cs ds : List Char) : encode (cs ++ ds) = encode cs ++ encode ds := by
  simp [encode]

/-- The bytes of a string. -/
def ofString (s : String) : Bytes :=
  encode s.toList

/-- A byte string as a string, with U+FFFD for each stray byte. -/
def toText (bs : Bytes) : String :=
  String.ofList (decode bs)

end Utf8

end Lox
