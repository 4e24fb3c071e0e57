import Lox.Cbor.Float
import Lox.Text.Utf8

/-!
# Data items

CBOR is a binary format for trees of data items. Each item begins with a head: three bits for the
major type and five bits of additional information, which either are a small argument or say how
many bytes hold it. An `Item` is the tree without its encoding: how long a head was spelled, and
whether a length was given beforehand, is forgotten.
-/

namespace Lox.Cbor

/-- A data item. -/
inductive Item where
  /-- A natural number. -/
  | unsigned (n : Nat)
  /-- The negative number `-1 - n`. -/
  | negative (n : Nat)
  /-- A string of bytes. -/
  | bytes (b : Bytes)
  /-- A text, in the chunks it came in. -/
  | text (chunks : List Bytes)
  /-- A list of items. -/
  | array (items : List Item)
  /-- A map: its keys and values in turn. -/
  | map (flat : List Item)
  /-- An item with a tag that says how to take it. -/
  | tag (number : Nat) (content : Item)
  /-- A simple value: false, true, null, undefined, or one without a name. -/
  | simple (n : Nat)
  /-- A floating-point number. -/
  | float (x : Float)

namespace Item

/-- The simple value true. -/
def trueItem : Item := simple 21

/-- The simple value null. -/
def null : Item := simple 22

/-- An integer. -/
def int (i : Int) : Item :=
  match i with
  | .ofNat n => unsigned n
  | .negSucc n => negative n

/-- A text in one piece. -/
def wholeText (b : Bytes) : Item :=
  text [b]

end Item

/-- The major types. -/
inductive Major where
  | unsigned | negative | bytes | text | array | map | tag | simple
  deriving DecidableEq, Repr

namespace Major

/-- The number of a major type. -/
def number : Major → Nat
  | unsigned => 0
  | negative => 1
  | bytes => 2
  | text => 3
  | array => 4
  | map => 5
  | tag => 6
  | simple => 7

/-- The major type of the item that begins with a byte. -/
def ofByte (b : UInt8) : Major :=
  match b.toNat / 32 with
  | 0 => unsigned
  | 1 => negative
  | 2 => bytes
  | 3 => text
  | 4 => array
  | 5 => map
  | 6 => tag
  | _ => simple

end Major

/-- The bytes of a number, most significant first, in a field of some width. -/
def bigEndian (width n : Nat) : Bytes :=
  (List.range width).reverse.map fun i => UInt8.ofNat (n / Nat.pow 256 i)

/-- The number that some bytes spell, most significant first. -/
def natural (bytes : Bytes) : Nat :=
  bytes.foldl (fun n b => n * 256 + b.toNat) 0

end Lox.Cbor
