import Lox.Cbor.Item

/-!
# Reading data items

A reader takes an item off the front of some bytes. All that can be wrong with the bytes is found
here: they may end too soon, or they may break the format. Containers may only be nested to a
depth of `maxDepth`, counting each tag that stands directly within another tag, and may only have
`maxElements` elements.

Reading is a recursion on the depth that is still allowed: the reader for one level is made from
the reader for what lies within.
-/

namespace Lox.Cbor

/-- Why bytes are rejected. -/
inductive Rejection where
  /-- They end too soon. -/
  | truncated
  /-- They break the format. -/
  | malformed
  /-- Something follows the item. -/
  | extraneous
  /-- The item is not of the expected kind or range. -/
  | mismatch
  deriving DecidableEq, Repr

/-- A reader gives what it takes off the front of some bytes, and what is left. -/
abbrev Reader (α : Type) := Bytes → Except Rejection (α × Bytes)

/-- The depth to which containers may be nested. -/
def maxDepth : Nat := 32

/-- The number of elements an array may have, and the number of entries of a map. -/
def maxElements : Nat := 131072

/-- The argument of a head. -/
inductive Argument where
  /-- A number; `wide` says whether it stands in bytes of its own, and in how many. -/
  | number (n : Nat) (wide : Nat)
  /-- None: the end is marked by a break. -/
  | indefinite
  deriving DecidableEq, Repr

/-- The first `n` bytes, which have to be there. -/
def take (n : Nat) : Reader Bytes := fun bs =>
  let front := bs.take n
  if front.length = n then .ok (front, bs.drop n) else .error .truncated

/-- The argument of a head whose first byte is `b`. -/
def argument (b : UInt8) : Reader Argument := fun bs =>
  let wide (n : Nat) : Except Rejection (Argument × Bytes) :=
    match take n bs with
    | .ok (front, rest) => .ok (.number (natural front) n, rest)
    | .error e => .error e
  match b.toNat % 32 with
  | 24 => wide 1
  | 25 => wide 2
  | 26 => wide 4
  | 27 => wide 8
  | 28 | 29 | 30 => .error .malformed
  | 31 => .ok (.indefinite, bs)
  | n => .ok (.number n 0, bs)

/-- A length, which has to be a signed word. -/
def length (n : Nat) : Except Rejection Nat :=
  if n < Nat.pow 2 63 then .ok n else .error .malformed

/-- A string of bytes whose length was given. -/
def definite (n : Nat) : Reader Bytes := fun bs =>
  match length n with
  | .ok n => take n bs
  | .error e => .error e

/-- A number of elements, which has to be within the bound. -/
def count (n : Nat) : Except Rejection Nat :=
  if n ≤ maxElements then .ok n else .error .malformed

/-- One chunk of a string of unknown length, which has to be a string of the same type and of
known length. -/
def chunk (major : Major) (b : UInt8) : Reader Bytes := fun bs =>
  if Major.ofByte b = major then
    match argument b bs with
    | .ok (.number n _, rest) => definite n rest
    | .ok (.indefinite, _) => .error .malformed
    | .error e => .error e
  else .error .malformed

/-- The byte that ends an item of unknown length. -/
def breakByte : UInt8 := 0xFF

/-- Taking bytes leaves no more than there were. -/
theorem length_take_le {n : Nat} {bs front rest : Bytes} (h : take n bs = .ok (front, rest)) :
    rest.length ≤ bs.length := by
  simp only [take] at h
  split at h
  · cases h
    simp
  · simp at h

/-- Reading the argument of a head leaves no more bytes than there were. -/
theorem length_argument_le {b : UInt8} {bs rest : Bytes} {a : Argument}
    (h : argument b bs = .ok (a, rest)) : rest.length ≤ bs.length := by
  simp only [argument] at h
  split at h
  all_goals first
    | (split at h
       · rename_i ht
         cases h
         exact length_take_le ht
       · simp at h)
    | (cases h; exact Nat.le_refl _)
    | simp at h

/-- Reading a part of a text or of a byte string leaves no more bytes than there were. -/
theorem length_chunk_le {major : Major} {b : UInt8} {bs front rest : Bytes}
    (h : chunk major b bs = .ok (front, rest)) : rest.length ≤ bs.length := by
  unfold chunk definite length at h
  split at h
  · split at h
    · rename_i ha
      split at h
      · exact Nat.le_trans (length_take_le h) (length_argument_le ha)
      · simp at h
    · simp at h
    · simp at h
  · simp at h

/-- The chunks of a string of unknown length, up to the break. -/
def chunks (major : Major) (bs : Bytes) (seen : List Bytes) :
    Except Rejection (List Bytes × Bytes) :=
  match bs with
  | [] => .error .truncated
  | b :: rest =>
    if b = breakByte then .ok (seen.reverse, rest)
    else
      match _read : chunk major b rest with
      | .error e => .error e
      | .ok (front, rest') => chunks major rest' (front :: seen)
termination_by bs.length
decreasing_by exact Nat.lt_succ_of_le (length_chunk_le _read)

/-- As many items as were announced. -/
def elements (item : Reader Item) : Nat → Bytes → List Item → Except Rejection (List Item × Bytes)
  | 0, bs, seen => .ok (seen.reverse, bs)
  | n + 1, bs, seen =>
    match item bs with
    | .error e => .error e
    | .ok (i, rest) => elements item n rest (i :: seen)

/-- The items up to the break, of which there may be as many as there is room for. -/
def elementsToBreak (item : Reader Item) :
    Nat → Bytes → List Item → Except Rejection (List Item × Bytes)
  | _, [], _ => .error .truncated
  | room, b :: bs, seen =>
    if b = breakByte then .ok (seen.reverse, bs)
    else
      match item (b :: bs) with
      | .error e => .error e
      | .ok (i, rest) =>
        match room with
        | 0 => .error .malformed
        | room + 1 => elementsToBreak item room rest (i :: seen)

/-- The items of an array. -/
def arrayItems (item : Reader Item) : Argument → Reader (List Item)
  | .number n _, bs =>
    match count n with
    | .ok n => elements item n bs []
    | .error e => .error e
  | .indefinite, bs => elementsToBreak item maxElements bs []

/-- The keys and values of a map. -/
def mapItems (item : Reader Item) : Argument → Reader (List Item)
  | .number n _, bs =>
    match count n with
    | .ok n => elements item (2 * n) bs []
    | .error e => .error e
  | .indefinite, bs =>
    match elementsToBreak item (2 * maxElements + 1) bs [] with
    | .ok (items, rest) => if items.length % 2 = 0 then .ok (items, rest) else .error .malformed
    | .error e => .error e

/-- A simple value or a floating-point number. A simple value in a byte of its own is not one
that would have fitted in the head. -/
def simpleItem : Argument → Except Rejection Item
  | .number n 0 => .ok (.simple n)
  | .number n 1 => if n < 32 then .error .malformed else .ok (.simple n)
  | .number n 2 => .ok (.float (Float.ofBits (UInt64.ofNat (FloatFormat.half.widen n))))
  | .number n 4 => .ok (.float (Float.ofBits (UInt64.ofNat (FloatFormat.single.widen n))))
  | .number n _ => .ok (.float (Float.ofBits (UInt64.ofNat n)))
  | .indefinite => .error .malformed

/-- The number that a head must have. -/
def needed : Argument → Except Rejection Nat
  | .number n _ => .ok n
  | .indefinite => .error .malformed

/-- An item without a tag, given the reader for what lies within, if anything may. -/
def untagged (inner? : Option (Reader Item)) (major : Major) (a : Argument) : Reader Item :=
  fun bs => do
    match major with
    | .unsigned => return (.unsigned (← needed a), bs)
    | .negative => return (.negative (← needed a), bs)
    | .bytes =>
      match a with
      | .number n _ =>
        let (front, rest) ← definite n bs
        return (.bytes front, rest)
      | .indefinite =>
        let (parts, rest) ← chunks major bs []
        return (.bytes parts.flatten, rest)
    | .text =>
      match a with
      | .number n _ =>
        let (front, rest) ← definite n bs
        return (.text [front], rest)
      | .indefinite =>
        let (parts, rest) ← chunks major bs []
        return (.text parts, rest)
    | .array =>
      match inner? with
      | none => .error .malformed
      | some item =>
        let (items, rest) ← arrayItems item a bs
        return (.array items, rest)
    | .map =>
      match inner? with
      | none => .error .malformed
      | some item =>
        let (items, rest) ← mapItems item a bs
        return (.map items, rest)
    | .tag | .simple => return (← simpleItem a, bs)

/-- The head of an item. -/
def head : Reader (Major × Argument)
  | [] => .error .truncated
  | b :: bs => do
    let (a, rest) ← argument b bs
    if Major.ofByte b = .tag then let _ ← needed a
    return ((Major.ofByte b, a), rest)

/-- An item, given the reader for what lies within, if anything may. A tag directly within a tag
lies deeper; any other item within a tag does not. -/
def itemWith (inner? : Option (Reader Item)) : Reader Item := fun bs => do
  let ((major, a), rest) ← head bs
  if major = .tag then
    let n ← needed a
    let ((major', a'), rest') ← head rest
    if major' = .tag then
      match inner? with
      | none => .error .malformed
      | some item =>
        let (content, last) ← item rest
        return (.tag n content, last)
    else
      let (content, last) ← untagged inner? major' a' rest'
      return (.tag n content, last)
  else untagged inner? major a rest

/-- An item within which others may be nested to some depth. -/
def item : Nat → Reader Item
  | 0 => itemWith none
  | depth + 1 => itemWith (some (item depth))

/-- The one item that some bytes are. -/
def read (bs : Bytes) : Except Rejection Item :=
  match item maxDepth bs with
  | .error e => .error e
  | .ok (i, []) => .ok i
  | .ok (_, _ :: _) => .error .extraneous

end Lox.Cbor
