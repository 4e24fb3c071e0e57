import Lox.Cbor.Read

/-!
# Making values from data items

A decoder makes a value from an item, or rejects it. Null and undefined stand for no value, which
is not a rejection. Tags are passed over, but the tags of dates, times and big numbers are held
to what they announce, and the number that a big number spells is taken for an integer.
-/

namespace Lox.Cbor

/-- A decoder gives a value, or nothing for null, or rejects the item. -/
abbrev Decoder (α : Type) := Item → Except Rejection (Option α)

namespace Item

/-- Whether an item is null or undefined. -/
def isNull : Item → Bool
  | simple n => n == 22 || n == 23
  | _ => false

/-- Whether the content of a tag is what the tag announces: a date is a text, a time is a number,
and a big number is a string of bytes. -/
def fitsTag (number : Nat) (content : Item) : Bool :=
  match number, content with
  | 0, text _ => true
  | 0, _ => false
  | 1, unsigned _ | 1, negative _ | 1, float _ => true
  | 1, _ => false
  | 2, bytes _ | 3, bytes _ => true
  | 2, _ | 3, _ => false
  | _, _ => true

/-- Whether a tag is that of a big number. -/
def isBig (number : Nat) : Bool :=
  number == 2 || number == 3

/-- The item within its tags, down to a big number. -/
def strip : Item → Except Rejection Item
  | tag number content =>
    if !fitsTag number content then .error .malformed
    else if isBig number then .ok (tag number content)
    else strip content
  | i => .ok i

/-- Why an item of the wrong kind is rejected: a text is first held to being one. -/
def misfit : Item → Rejection
  | text chunks => if chunks.all Utf8.isValid then .mismatch else .malformed
  | _ => .mismatch

/-- The integer that an item without a tag to pass over is, if it is one. Simple values without
a name count as their numbers. -/
def integer? : Item → Option Int
  | unsigned n => some n
  | negative n => some (-1 - n)
  | simple n => if 20 ≤ n ∧ n < 24 then none else some n
  | tag 2 (bytes b) => some (natural b)
  | tag 3 (bytes b) => some (-1 - natural b)
  | _ => none

end Item

/-- Decodes an item within its tags. -/
def decodeWith {α : Type} (f : Item → Except Rejection α) : Decoder α := fun i => do
  let i ← i.strip
  if i.isNull then return none else return some (← f i)

/-- An integer in a range. -/
def integer (least greatest : Int) : Decoder Int :=
  decodeWith fun i =>
    match i.integer? with
    | some n => if least ≤ n ∧ n ≤ greatest then .ok n else .error .mismatch
    | none => .error i.misfit

/-- The least signed word. -/
def minWord : Int := -(Nat.pow 2 63 : Int)

/-- The greatest signed word. -/
def maxWord : Int := (Nat.pow 2 63 : Int) - 1

/-- A number: a floating-point number, or an integer of at most a word, rounded. -/
def number : Decoder Float :=
  decodeWith fun i =>
    match i with
    | .float x => .ok x
    | _ =>
      match i.integer? with
      | some n =>
        if minWord ≤ n ∧ n < (Nat.pow 2 64 : Int) then .ok (Float.ofInt n) else .error .mismatch
      | none => .error i.misfit

/-- A truth value. -/
def boolean : Decoder Bool :=
  decodeWith fun i =>
    match i with
    | .simple 20 => .ok false
    | .simple 21 => .ok true
    | _ => .error i.misfit

/-- A text, which has to be valid. -/
def wellText : Decoder Bytes :=
  decodeWith fun i =>
    match i with
    | .text chunks => if chunks.all Utf8.isValid then .ok chunks.flatten else .error .malformed
    | _ => .error .mismatch

/-- The values of some items, with a default for those that are null. -/
def each {α : Type} (decode : Decoder α) (default : α) :
    List Item → List α → Except Rejection (List α)
  | [], seen => .ok seen.reverse
  | i :: is, seen =>
    match decode i with
    | .error e => .error e
    | .ok v? => each decode default is (v?.getD default :: seen)

/-- A list of values, with a default for those that are null. -/
def list {α : Type} (decode : Decoder α) (default : α) : Decoder (List α) :=
  decodeWith fun i =>
    match i with
    | .array items => each decode default items []
    | _ => .error i.misfit

/-- A string of bytes, which may also come as a list of integers. -/
def byteString : Decoder Bytes :=
  decodeWith fun i =>
    match i with
    | .bytes b | .tag _ (.bytes b) => .ok b
    | .array items => do
      return (← each (integer 0 255) 0 items []).map fun n => UInt8.ofNat n.toNat
    | _ => .error i.misfit

/-- The field that a key stands for. Keys are integers, kept in a signed word, or texts that
spell one of the names. Any other key of these kinds stands for no field. -/
def key (names : List (Bytes × Int)) : Item → Except Rejection (Option Int)
  | .unsigned n => .ok (some (Int.bmod n (Nat.pow 2 64)))
  | .negative n => .ok (some (Int.bmod (-1 - n) (Nat.pow 2 64)))
  | .text chunks =>
    if chunks.all Utf8.isValid then .ok (names.lookup chunks.flatten) else .error .malformed
  | _ => .error .mismatch

/-- Goes through the keys and values of a map, and gives each field that is not yet `seen` to
`set`. -/
def fields {σ : Type} (names : List (Bytes × Int)) (set : Int → Item → σ → Except Rejection σ) :
    List Int → List Item → σ → Except Rejection σ
  | seen, k :: v :: rest, s =>
    match key names k with
    | .error e => .error e
    | .ok none => fields names set seen rest s
    | .ok (some n) =>
      if seen.contains n then fields names set seen rest s
      else
        match set n v s with
        | .error e => .error e
        | .ok s => fields names set (n :: seen) rest s
  | _, _, s => .ok s

/-- A record of fields, made from a default. -/
def record {σ : Type} (names : List (Bytes × Int)) (default : σ)
    (set : Int → Item → σ → Except Rejection σ) : Decoder σ :=
  decodeWith fun i =>
    match i with
    | .map flat => fields names set [] flat default
    | _ => .error i.misfit

end Lox.Cbor
