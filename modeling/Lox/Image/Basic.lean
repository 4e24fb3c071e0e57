import Lox.Cbor.Decode
import Lox.Cbor.Write
import Lox.Chunk.Verify

/-!
# Images

An image is a chunk as it is saved: a map with numbered fields for the version, the code, the
lines and the constants, each constant in turn a map. Sections that a chunk never had are null,
and fields of a constant are left out when they hold nothing.
-/

namespace Lox

/-- A constant as an image holds it. Which of the last three fields counts is up to the kind. -/
structure Image.Constant where
  kind : Int := 0
  flag : Bool := false
  number : Float := 0
  text : Bytes := []

/-- The content of an image. -/
structure Image where
  version : Int := 0
  code : Option Bytes := none
  lines : Option (List Int) := none
  consts : List Image.Constant := []

namespace Image

open Cbor

/-- The version of the format that this library writes, and the only one it reads. -/
def currentVersion : Int := 1

/-- Field names are also accepted as texts. -/
def names : List (Bytes × Int) :=
  [(Utf8.ofString "1", 1), (Utf8.ofString "2", 2), (Utf8.ofString "3", 3), (Utf8.ofString "4", 4)]

namespace Constant

/-- The constant that holds a value. -/
def ofValue : Value → Constant
  | .nil => {}
  | .bool b => { kind := 1, flag := b }
  | .number x => { kind := 2, number := x }
  | .text b => { kind := 3, text := b }

/-- The value that a constant holds, if its kind is known. -/
def toValue? (c : Constant) : Option Value :=
  match c.kind with
  | 0 => some .nil
  | 1 => some (.bool c.flag)
  | 2 => some (.number c.number)
  | 3 => some (.text c.text)
  | _ => none

/-- A constant as a data item. -/
def toItem (c : Constant) : Item :=
  .map ([.unsigned 1, .int c.kind]
    ++ (if c.flag then [.unsigned 2, .trueItem] else [])
    ++ (if c.number == 0 then [] else [.unsigned 3, .float c.number])
    ++ (if c.text.isEmpty then [] else [.unsigned 4, .wholeText c.text]))

/-- Sets a field of a constant. -/
def set (n : Int) (i : Item) (c : Constant) : Except Rejection Constant :=
  match n with
  | 1 => do return { c with kind := (← integer 0 255 i).getD c.kind }
  | 2 => do return { c with flag := (← boolean i).getD c.flag }
  | 3 => do return { c with number := (← Cbor.number i).getD c.number }
  | 4 => do return { c with text := (← wellText i).getD c.text }
  | _ => .ok c

/-- Makes a constant from a data item. -/
def decode : Decoder Constant :=
  record names {} set

end Constant

/-- An image as a data item. -/
def toItem (m : Image) : Item :=
  .map [.unsigned 1, .int m.version,
    .unsigned 2, (match m.code with | some b => .bytes b | none => .null),
    .unsigned 3, (match m.lines with | some is => .array (is.map .int) | none => .null),
    .unsigned 4, if m.consts.isEmpty then .null else .array (m.consts.map Constant.toItem)]

/-- Sets a field of an image. -/
def set (n : Int) (i : Item) (m : Image) : Except Rejection Image :=
  match n with
  | 1 => do return { m with version := (← integer minWord maxWord i).getD m.version }
  | 2 => do return { m with code := ← byteString i }
  | 3 => do return { m with lines := ← list (integer minWord maxWord) 0 i }
  | 4 => do return { m with consts := (← list Constant.decode {} i).getD m.consts }
  | _ => .ok m

/-- Makes an image from a data item. -/
def decode : Decoder Image :=
  record names {} set

/-- The image of some bytes. -/
def ofBytes (bs : Bytes) : Except Rejection Image := do
  let i ← Cbor.read bs
  return (← decode i).getD {}

/-- The bytes of an image. -/
def toBytes (m : Image) : Bytes :=
  m.toItem.write

end Image

end Lox
