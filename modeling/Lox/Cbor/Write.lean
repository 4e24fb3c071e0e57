import Lox.Cbor.Item

/-!
# Writing data items

Items are written in their shortest form: a head is as short as its argument allows, lengths are
given beforehand, and a floating-point number takes the narrowest format that keeps its value.
-/

namespace Lox.Cbor

/-- The head with an additional information. -/
def headByte (major : Major) (info : Nat) : UInt8 :=
  UInt8.ofNat (major.number * 32 + info)

/-- The shortest head with an argument. -/
def writeHead (major : Major) (n : Nat) : Bytes :=
  if n < 24 then [headByte major n]
  else if n < Nat.pow 2 8 then headByte major 24 :: bigEndian 1 n
  else if n < Nat.pow 2 16 then headByte major 25 :: bigEndian 2 n
  else if n < Nat.pow 2 32 then headByte major 26 :: bigEndian 4 n
  else headByte major 27 :: bigEndian 8 n

/-- The bits of the NaN that stands for all of them. -/
def nanBits : Nat := 0x7E00

/-- A floating-point number. -/
def writeFloat (x : Float) : Bytes :=
  let bits := x.toBits.toNat
  if x.isNaN then headByte .simple 25 :: bigEndian 2 nanBits
  else
    match FloatFormat.half.narrow? bits with
    | some b => headByte .simple 25 :: bigEndian 2 b
    | none =>
      match FloatFormat.single.narrow? bits with
      | some b => headByte .simple 26 :: bigEndian 4 b
      | none => headByte .simple 27 :: bigEndian 8 bits

/-- A data item. -/
def Item.write : Item → Bytes
  | .unsigned n => writeHead .unsigned n
  | .negative n => writeHead .negative n
  | .bytes b => writeHead .bytes b.length ++ b
  | .text chunks => writeHead .text chunks.flatten.length ++ chunks.flatten
  | .array items => writeHead .array items.length ++ items.flatMap Item.write
  | .map flat => writeHead .map (flat.length / 2) ++ flat.flatMap Item.write
  | .tag n content => writeHead .tag n ++ content.write
  | .simple n => writeHead .simple n
  | .float x => writeFloat x

end Lox.Cbor
