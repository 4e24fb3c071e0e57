import Lox.Cbor.Read
import Lox.Cbor.Write
import Mathlib

/-!
# Written items are read back

Writing gives the shortest form of an item, and reading accepts more than that. Here reading is
shown to undo writing, for every item that keeps to the limits of the reader (`Item.Fits`): its
numbers and lengths fit their fields, its containers are not nested too deeply, and have no more
elements than they may (`item_write`). Lemmas on prefixes say what is left of the bytes after an
item.

An array beyond the limit is written all the same, and then rejected with all that it stands in
(`rejects_array`, `rejects_map`).
-/

namespace Lox.Cbor

variable {n w info : Nat} {major : Major} {a : Argument} {b bs front rest : Bytes}

/-! ## Numbers in fields -/

/-- A number takes as many bytes as its field has. -/
theorem length_bigEndian (w n : Nat) : (bigEndian w n).length = w := by
  simp [bigEndian]

/-- A field begins with its most significant byte. -/
theorem bigEndian_succ (w n : Nat) :
    bigEndian (w + 1) n = UInt8.ofNat (n / Nat.pow 256 w) :: bigEndian w n := by
  simp [bigEndian, List.range_succ]

/-- Reading digits after others shifts the number so far. -/
theorem foldl_natural (bytes : Bytes) (acc : Nat) :
    bytes.foldl (fun n b => n * 256 + b.toNat) acc
      = acc * Nat.pow 256 bytes.length + natural bytes := by
  induction bytes generalizing acc with
  | nil => simp [natural]
  | cons b bytes ih =>
    have hpow : Nat.pow 256 (bytes.length + 1) = Nat.pow 256 bytes.length * 256 := rfl
    rw [natural, List.foldl_cons, List.foldl_cons, ih, ih, List.length_cons, hpow]
    generalize Nat.pow 256 bytes.length = p
    rw [Nat.add_mul, Nat.add_mul, Nat.mul_assoc, Nat.mul_comm 256 p]
    omega

/-- The number of a field begins with the weight of its first byte. -/
theorem natural_cons (b : UInt8) (bytes : Bytes) :
    natural (b :: bytes) = b.toNat * Nat.pow 256 bytes.length + natural bytes := by
  rw [natural, List.foldl_cons, foldl_natural, Nat.zero_mul, Nat.zero_add]

/-- The digits of a number to the base 256. -/
theorem natural_bigEndian (w n : Nat) : natural (bigEndian w n) = n % Nat.pow 256 w := by
  induction w with
  | zero => simp [bigEndian, natural, Nat.mod_one]
  | succ w ih =>
    have hdigit : n % Nat.pow 256 (w + 1)
        = n % Nat.pow 256 w + Nat.pow 256 w * (n / Nat.pow 256 w % 256) := Nat.mod_pow_succ
    rw [bigEndian_succ, natural_cons, length_bigEndian, ih, UInt8.toNat_ofNat', hdigit,
      Nat.mul_comm, Nat.add_comm]

/-- A number that fits its field is read back from it. -/
theorem natural_bigEndian_of_lt (h : n < Nat.pow 256 w) : natural (bigEndian w n) = n := by
  rw [natural_bigEndian, Nat.mod_eq_of_lt h]

/-- Taking as many bytes as stand in front gives them and leaves the rest. -/
theorem take_append (front rest : Bytes) :
    take front.length (front ++ rest) = .ok (front, rest) := by
  simp [take]

/-! ## Heads -/

/-- A head holds its major type in the upper three bits and the additional information in the
others. -/
theorem toNat_headByte (h : info < 32) :
    (headByte major info).toNat = major.number * 32 + info := by
  have hmajor : major.number ≤ 7 := by cases major <;> decide
  rw [headByte, UInt8.toNat_ofNat', Nat.mod_eq_of_lt (by omega)]

/-- The major type is read back from the head. -/
theorem ofByte_headByte (h : info < 32) : Major.ofByte (headByte major info) = major := by
  have hdiv : (headByte major info).toNat / 32 = major.number := by
    rw [toNat_headByte h]
    omega
  rw [Major.ofByte, hdiv]
  cases major <;> rfl

/-- A small argument stands in the head itself. -/
theorem argument_small (h : info < 24) :
    argument (headByte major info) bs = .ok (.number info 0, bs) := by
  have hmod : (headByte major info).toNat % 32 = info := by
    rw [toNat_headByte (by omega)]
    omega
  simp only [argument, hmod]
  split <;> first | rfl | omega

/-- The additional information that announces a field, and the width of the field. -/
def wides : List (Nat × Nat) :=
  [(24, 1), (25, 2), (26, 4), (27, 8)]

/-- An argument in a field of its own is read, and leaves what follows it. -/
theorem argument_wide (hw : (info, w) ∈ wides) (h : n < Nat.pow 256 w) :
    argument (headByte major info) (bigEndian w n ++ rest) = .ok (.number n w, rest) := by
  have htake := take_append (bigEndian w n) rest
  rw [length_bigEndian] at htake
  have hmod (hinfo : info < 32) : (headByte major info).toNat % 32 = info := by
    rw [toNat_headByte hinfo]
    omega
  simp only [wides, List.mem_cons, Prod.mk.injEq, List.not_mem_nil, or_false] at hw
  rcases hw with ⟨rfl, rfl⟩ | ⟨rfl, rfl⟩ | ⟨rfl, rfl⟩ | ⟨rfl, rfl⟩ <;>
    simp only [argument, hmod (by decide), htake, natural_bigEndian_of_lt h]

/-- A head is read as its major type and its argument. -/
theorem head_of_argument (h : info < 32)
    (ha : argument (headByte major info) bs = .ok (.number n w, rest)) :
    head (headByte major info :: bs) = .ok ((major, .number n w), rest) := by
  simp only [head, ha, ofByte_headByte h]
  cases major <;> rfl

/-- A head with its argument in a field is read, and leaves what follows it. -/
theorem head_wide (hw : (info, w) ∈ wides) (h : n < Nat.pow 256 w) (rest : Bytes) :
    head (headByte major info :: bigEndian w n ++ rest) = .ok ((major, .number n w), rest) := by
  have hinfo : info < 32 := by
    simp only [wides, List.mem_cons, Prod.mk.injEq, List.not_mem_nil, or_false] at hw
    omega
  exact head_of_argument hinfo (argument_wide hw h)

/-- The head that is written is read, and leaves what follows it. -/
theorem exists_head_writeHead (major : Major) (h : n < Nat.pow 2 64) (rest : Bytes) :
    ∃ w, head (writeHead major n ++ rest) = .ok ((major, .number n w), rest) ∧
      (n < 24 → w = 0) := by
  unfold writeHead
  split
  · rename_i hn
    exact ⟨0, head_of_argument (by omega) (argument_small hn), fun _ => rfl⟩
  · rename_i hn
    split
    · rename_i h8
      exact ⟨1, head_wide (by decide) h8 rest, fun h => absurd h hn⟩
    · split
      · rename_i h16
        exact ⟨2, head_wide (by decide) h16 rest, fun h => absurd h hn⟩
      · split
        · rename_i h32
          exact ⟨4, head_wide (by decide) h32 rest, fun h => absurd h hn⟩
        · exact ⟨8, head_wide (by decide) h rest, fun h => absurd h hn⟩

/-! ## Items without others in them -/

section Items

variable {inner? : Option (Reader Item)}

/-- An item without a tag is read by its head. -/
theorem itemWith_of_head (h : head bs = .ok ((major, a), rest)) (hmajor : major ≠ .tag) :
    itemWith inner? bs = untagged inner? major a rest := by
  simp only [itemWith, h]
  exact if_neg hmajor

/-- A string of known length is read, and leaves what follows it. -/
theorem definite_append (h : front.length < Nat.pow 2 63) (rest : Bytes) :
    definite front.length (front ++ rest) = .ok (front, rest) := by
  rw [definite, length, if_pos h]
  exact take_append front rest

/-- The bits of a number in a narrow format fit the width of the format. -/
theorem FloatFormat.lt_of_narrow? {f : FloatFormat} {bits b : Nat} (h : f.narrow? bits = some b) :
    b < Nat.pow 2 (f.magnitudeBits + 1) := by
  simp only [narrow?] at h
  split at h
  · rename_i hb
    cases h
    exact hb.1
  · cases h

/-- A number is made again from its bits. -/
theorem ofBits_ofNat_toBits (x : Float) : Float.ofBits (UInt64.ofNat x.toBits.toNat) = x := by
  rw [UInt64.ofNat_toNat, Float.ofBits_toBits]

/-- The bits that stand for every NaN are read as the one there is. -/
theorem simpleItem_nanBits : simpleItem (.number nanBits 2) = .ok (.float Float.nan) := by
  have hwiden : FloatFormat.half.widen nanBits = 0x7FF8000000000000 := by decide
  rw [simpleItem, hwiden]
  rfl

/-- A number comes back with the same bits, whatever its width. -/
theorem itemWith_writeFloat (x : Float) (rest : Bytes) :
    itemWith inner? (writeFloat x ++ rest) = .ok (.float x, rest) := by
  have hread {info w n : Nat} (hw : (info, w) ∈ wides) (hn : n < Nat.pow 256 w)
      (hitem : simpleItem (.number n w) = .ok (.float x)) :
      itemWith inner? (headByte .simple info :: bigEndian w n ++ rest) = .ok (.float x, rest) := by
    rw [itemWith_of_head (head_wide hw hn rest) (by decide), untagged]
    simp only [hitem]
    rfl
  unfold writeFloat
  dsimp only
  split
  · rename_i hnan
    obtain rfl : x = Float.nan := by
      rwa [Float.isNaN_eq_decide_eq_nan, decide_eq_true_eq] at hnan
    exact hread (by decide) (by decide) simpleItem_nanBits
  · split
    · rename_i b hnarrow
      refine hread (by decide) (FloatFormat.lt_of_narrow? hnarrow) ?_
      rw [simpleItem, FloatFormat.widen_of_narrow? hnarrow, ofBits_ofNat_toBits]
    · split
      · rename_i b hnarrow
        refine hread (by decide) (FloatFormat.lt_of_narrow? hnarrow) ?_
        rw [simpleItem, FloatFormat.widen_of_narrow? hnarrow, ofBits_ofNat_toBits]
      · have hdouble : simpleItem (.number x.toBits.toNat 8)
            = .ok (.float (Float.ofBits (UInt64.ofNat x.toBits.toNat))) := rfl
        refine hread (by decide) x.toBits.toNat_lt ?_
        rw [hdouble, ofBits_ofNat_toBits]

end Items

/-! ## Items within the limits -/

/-- An item that keeps to the limits of the reader, with containers nested no deeper than the given
depth. -/
inductive Item.Fits : Nat → Item → Prop where
  | unsigned {d n : Nat} : n < Nat.pow 2 64 → Fits d (.unsigned n)
  | negative {d n : Nat} : n < Nat.pow 2 64 → Fits d (.negative n)
  | bytes {d : Nat} {b : Bytes} : b.length < Nat.pow 2 63 → Fits d (.bytes b)
  | text {d : Nat} {b : Bytes} : b.length < Nat.pow 2 63 → Fits d (.text [b])
  | simple {d n : Nat} : n < 24 → Fits d (.simple n)
  | float {d : Nat} (x : Float) : Fits d (.float x)
  | array {d : Nat} {items : List Item} : items.length ≤ maxElements →
      (∀ i ∈ items, Fits d i) → Fits (d + 1) (.array items)
  | map {d n : Nat} {flat : List Item} : flat.length = 2 * n → n ≤ maxElements →
      (∀ i ∈ flat, Fits d i) → Fits (d + 1) (.map flat)

/-- A reader undoes the writing of an item. -/
def Undoes (read : Reader Item) (i : Item) : Prop :=
  ∀ rest, read (i.write ++ rest) = .ok (i, rest)

/-- Items that are each read back are read back one after another. -/
theorem elements_append {read : Reader Item} {items : List Item}
    (h : ∀ i ∈ items, Undoes read i) (rest : Bytes) (seen : List Item) :
    elements read items.length (items.flatMap Item.write ++ rest) seen
      = .ok (seen.reverse ++ items, rest) := by
  induction items generalizing seen with
  | nil => simp [elements]
  | cons i items ih =>
    have hi : read (i.write ++ (items.flatMap Item.write ++ rest))
        = .ok (i, items.flatMap Item.write ++ rest) := h i List.mem_cons_self _
    have hrest := ih fun j hj => h j (List.mem_cons_of_mem i hj)
    rw [List.length_cons, List.flatMap_cons, List.append_assoc, elements]
    simp only [hi]
    rw [hrest, List.reverse_cons, List.append_assoc]
    rfl

/-- A count of elements that is within the limit fits the widest field. -/
theorem lt_word_of_le (h : n ≤ maxElements) : n < Nat.pow 2 64 :=
  Nat.lt_of_le_of_lt h (by decide)

/-- An item without others in it is read alike at every depth. -/
theorem undoes_item {i : Item} (h : ∀ inner?, Undoes (itemWith inner?) i) (d : Nat) :
    Undoes (item d) i := by
  cases d with
  | zero => exact h none
  | succ d => exact h (some (item d))

/-- Reading undoes writing: an item within the limits is read back, and what follows it is left. -/
theorem item_write {d : Nat} {i : Item} (h : i.Fits d) : Undoes (item d) i := by
  induction h with
  | @unsigned d n hn =>
    refine undoes_item (fun inner? rest => ?_) d
    obtain ⟨w, hhead, -⟩ := exists_head_writeHead .unsigned hn rest
    rw [Item.write, itemWith_of_head hhead (by decide)]
    rfl
  | @negative d n hn =>
    refine undoes_item (fun inner? rest => ?_) d
    obtain ⟨w, hhead, -⟩ := exists_head_writeHead .negative hn rest
    rw [Item.write, itemWith_of_head hhead (by decide)]
    rfl
  | @bytes d b hb =>
    refine undoes_item (fun inner? rest => ?_) d
    obtain ⟨w, hhead, -⟩ := exists_head_writeHead .bytes (Nat.lt_trans hb (by decide)) (b ++ rest)
    rw [Item.write, List.append_assoc, itemWith_of_head hhead (by decide)]
    simp only [untagged, definite_append hb]
    rfl
  | @text d b hb =>
    refine undoes_item (fun inner? rest => ?_) d
    obtain ⟨w, hhead, -⟩ := exists_head_writeHead .text (Nat.lt_trans hb (by decide)) (b ++ rest)
    rw [Item.write, List.flatten_singleton, List.append_assoc, itemWith_of_head hhead (by decide)]
    simp only [untagged, definite_append hb]
    rfl
  | @simple d n hn =>
    refine undoes_item (fun inner? rest => ?_) d
    obtain ⟨w, hhead, hw⟩ := exists_head_writeHead .simple (Nat.lt_trans hn (by decide)) rest
    obtain rfl := hw hn
    rw [Item.write, itemWith_of_head hhead (by decide)]
    rfl
  | @float d x =>
    refine undoes_item (fun inner? rest => ?_) d
    rw [Item.write]
    exact itemWith_writeFloat x rest
  | @array d items hcount _ ih =>
    intro rest
    obtain ⟨w, hhead, -⟩ := exists_head_writeHead .array (lt_word_of_le hcount)
      (items.flatMap Item.write ++ rest)
    rw [item, Item.write, List.append_assoc, itemWith_of_head hhead (by decide)]
    simp only [untagged, arrayItems, count, if_pos hcount, elements_append ih]
    rfl
  | @map d n flat hlength hcount _ ih =>
    intro rest
    have hhalf : flat.length / 2 = n := by omega
    obtain ⟨w, hhead, -⟩ := exists_head_writeHead .map (lt_word_of_le hcount)
      (flat.flatMap Item.write ++ rest)
    have helements := elements_append ih rest []
    rw [hlength] at helements
    rw [item, Item.write, hhalf, List.append_assoc, itemWith_of_head hhead (by decide)]
    simp only [untagged, mapItems, count, if_pos hcount, helements]
    rfl

/-- An item within the limits is read back from the whole of its bytes. -/
theorem read_write {i : Item} (h : i.Fits maxDepth) : read i.write = .ok i := by
  have hitem := item_write h []
  rw [List.append_nil] at hitem
  simp only [read, hitem]

/-! ## Items beyond the limits -/

/-- A reader rejects the bytes of an item. -/
def Rejects (read : Reader Item) (i : Item) (e : Rejection) : Prop :=
  ∀ rest, read (i.write ++ rest) = .error e

/-- An array with too many elements is written, but not read. -/
theorem rejects_array {items : List Item} (h : maxElements < items.length)
    (hword : items.length < Nat.pow 2 64) (d : Nat) :
    Rejects (item (d + 1)) (.array items) .malformed := by
  intro rest
  obtain ⟨w, hhead, -⟩ := exists_head_writeHead .array hword (items.flatMap Item.write ++ rest)
  rw [item, Item.write, List.append_assoc, itemWith_of_head hhead (by decide)]
  simp only [untagged, arrayItems, count, if_neg (Nat.not_le_of_lt h)]
  rfl

/-- Among items one after another, the first that is rejected decides. -/
theorem elements_of_rejects {read : Reader Item} {before : List Item} {i : Item} {e : Rejection}
    (hbefore : ∀ j ∈ before, Undoes read j) (hi : Rejects read i e) (n : Nat) (rest : Bytes)
    (seen : List Item) :
    elements read (before.length + (n + 1)) (before.flatMap Item.write ++ (i.write ++ rest)) seen
      = .error e := by
  induction before generalizing seen with
  | nil =>
    rw [List.length_nil, Nat.zero_add, List.flatMap_nil, List.nil_append, elements, hi rest]
  | cons j before ih =>
    have hj : read (j.write ++ (before.flatMap Item.write ++ (i.write ++ rest)))
        = .ok (j, before.flatMap Item.write ++ (i.write ++ rest)) :=
      hbefore j List.mem_cons_self _
    rw [List.length_cons, Nat.succ_add, List.flatMap_cons, List.append_assoc, elements]
    simp only [hj]
    exact ih (fun k hk => hbefore k (List.mem_cons_of_mem j hk)) _

/-- A map is rejected on account of the first item in it that is. -/
theorem rejects_map {before after : List Item} {i : Item} {e : Rejection} {d n : Nat}
    (hbefore : ∀ j ∈ before, j.Fits d) (hi : Rejects (item d) i e)
    (hlength : (before ++ i :: after).length = 2 * n) (hcount : n ≤ maxElements) :
    Rejects (item (d + 1)) (.map (before ++ i :: after)) e := by
  intro rest
  have hhalf : (before ++ i :: after).length / 2 = n := by omega
  have hsplit : (before ++ i :: after).flatMap Item.write ++ rest
      = before.flatMap Item.write ++ (i.write ++ (after.flatMap Item.write ++ rest)) := by
    simp only [List.flatMap_append, List.flatMap_cons, List.append_assoc]
  have hnumber : 2 * n = before.length + (after.length + 1) := by
    rw [← hlength, List.length_append, List.length_cons]
  have helements := elements_of_rejects (fun j hj => item_write (hbefore j hj)) hi after.length
    (after.flatMap Item.write ++ rest) []
  rw [← hnumber, ← hsplit] at helements
  obtain ⟨w, hhead, -⟩ := exists_head_writeHead .map (lt_word_of_le hcount)
    ((before ++ i :: after).flatMap Item.write ++ rest)
  rw [item, Item.write, hhalf, List.append_assoc, itemWith_of_head hhead (by decide)]
  simp only [untagged, mapItems, count, if_pos hcount, helements]
  rfl

/-- If the reader rejects an item, it rejects the bytes that are written for it. -/
theorem read_of_rejects {i : Item} {e : Rejection} (h : Rejects (item maxDepth) i e) :
    read i.write = .error e := by
  have hitem := h []
  rw [List.append_nil] at hitem
  simp only [read, hitem]

end Lox.Cbor
