import Lox.Image.Chunk
import Lox.Proofs.Cbor
import Lox.Proofs.Discipline
import Lox.Proofs.Extent

/-!
# Saving and loading

A saved chunk is a tree of data items. The tree is written and read back as it was
(`Cbor.item_write`), and what is made from it is the image that was saved (`Image.decode_toItem`):
fields that were left out come back as the defaults they held. So a chunk that the format can hold
comes back as it was, if the verifier accepts it (`Chunk.load_save`).

The format can hold every compiled chunk, with one exception. The lines are saved as an array with
an element for each byte of code, and an array of more than `Cbor.maxElements` elements is not read.
A program with more code than that is saved without complaint, and its image cannot be loaded.
-/

namespace Lox

/-! ## Items as values -/

namespace Cbor

variable {α : Type} {i : Item} {f : Item → Except Rejection α} {v : α}

/-- An item without a tag is decoded as it is. -/
theorem decodeWith_of_ok (hstrip : i.strip = .ok i) (hnull : i.isNull = false) (h : f i = .ok v) :
    decodeWith f i = .ok (some v) := by
  simp only [decodeWith, hstrip, bind, Except.bind, hnull, h]
  rfl

/-- An integer within the bounds is decoded from its item. -/
theorem integer_int {least greatest n : Int} (h : least ≤ n ∧ n ≤ greatest) :
    integer least greatest (.int n) = .ok (some n) := by
  have hinteger : (Item.int n).integer? = some n := by
    cases n with
    | ofNat n => rfl
    | negSucc n =>
      simp only [Item.int, Item.integer?]
      congr 1
      omega
  have hstrip : (Item.int n).strip = .ok (.int n) := by cases n <;> rfl
  have hnull : (Item.int n).isNull = false := by cases n <;> rfl
  refine decodeWith_of_ok hstrip hnull ?_
  simp only [hinteger, if_pos h]

/-- A well-formed text is decoded from its item. -/
theorem wellText_wholeText {b : Bytes} (h : Utf8.isValid b = true) :
    wellText (.wholeText b) = .ok (some b) := by
  refine decodeWith_of_ok rfl rfl ?_
  simp [Item.wholeText, h]

/-- A byte string is decoded from its item. -/
theorem byteString_bytes (b : Bytes) : byteString (.bytes b) = .ok (some b) := rfl

/-- Items that are each decoded as what they were made from are so one after another. -/
theorem each_map {decode : Decoder α} {default : α} {toItem : α → Item} {xs : List α}
    (h : ∀ x ∈ xs, decode (toItem x) = .ok (some x)) (seen : List α) :
    each decode default (xs.map toItem) seen = .ok (seen.reverse ++ xs) := by
  induction xs generalizing seen with
  | nil => simp [each]
  | cons x xs ih =>
    rw [List.map_cons, each, h x List.mem_cons_self]
    simp only [Option.getD_some]
    rw [ih (fun y hy => h y (List.mem_cons_of_mem x hy)), List.reverse_cons, List.append_assoc]
    rfl

/-- A list comes back if each of its elements does. -/
theorem list_array {decode : Decoder α} {default : α} {toItem : α → Item} {xs : List α}
    (h : ∀ x ∈ xs, decode (toItem x) = .ok (some x)) :
    list decode default (.array (xs.map toItem)) = .ok (some xs) :=
  decodeWith_of_ok rfl rfl (each_map h [])

/-- A field that is met for the first time is set. -/
theorem fields_cons {σ : Type} {names : List (Bytes × Int)}
    {set : Int → Item → σ → Except Rejection σ} {seen : List Int} {n : Nat} {v : Item}
    {s s' : σ} (hn : n < Nat.pow 2 63) (hseen : (n : Int) ∉ seen) (hset : set n v s = .ok s')
    (rest : List Item) :
    fields names set seen (.unsigned n :: v :: rest) s = fields names set (n :: seen) rest s' := by
  have hword : Nat.pow 2 63 = 9223372036854775808 := rfl
  have hkey : key names (.unsigned n) = .ok (some (n : Int)) := by
    have hwrap : Int.bmod n 18446744073709551616 = n := Int.bmod_eq_of_le (by omega) (by omega)
    exact congrArg (fun k => Except.ok (some k)) hwrap
  have hnew : seen.contains (n : Int) = false := by simpa using hseen
  rw [fields, hkey]
  simp only [hnew, Bool.false_eq_true, if_false, hset]

/-- The keys and values of `n` entries of a map, which keep to the limits. -/
structure Entries (d n : Nat) (flat : List Item) : Prop where
  length_eq : flat.length = 2 * n
  fits : ∀ i ∈ flat, i.Fits d

namespace Entries

variable {d m n : Nat} {flat flat' : List Item}

/-- No entries keep to the limits. -/
theorem nil : Entries d 0 [] :=
  ⟨rfl, List.forall_mem_nil _⟩

/-- A field with a small key and a value within the limits keeps to them. -/
theorem field {k : Nat} {v : Item} (hk : k < 24) (hv : v.Fits d) :
    Entries d 1 [.unsigned k, v] := by
  refine ⟨rfl, List.forall_mem_cons.mpr ⟨?_, List.forall_mem_singleton.mpr hv⟩⟩
  exact .unsigned (Nat.lt_trans hk (by decide))

/-- Entries within the limits may be put together. -/
theorem append (h : Entries d m flat) (h' : Entries d n flat') :
    Entries d (m + n) (flat ++ flat') := by
  refine ⟨?_, List.forall_mem_append.mpr ⟨h.fits, h'.fits⟩⟩
  rw [List.length_append, h.length_eq, h'.length_eq, Nat.mul_add]

/-- Entries within the limits make a map within them, one level up, if there are not too many. -/
theorem map (h : Entries d n flat) (hn : n ≤ maxElements) : (Item.map flat).Fits (d + 1) :=
  .map h.length_eq hn h.fits

end Entries

/-- A word fits the reader at every depth. -/
theorem fits_int {d : Nat} {n : Int} (h : minWord ≤ n ∧ n ≤ maxWord) : (Item.int n).Fits d := by
  have hword : Nat.pow 2 63 = 9223372036854775808 := rfl
  have hwide : Nat.pow 2 64 = 18446744073709551616 := rfl
  simp only [minWord, maxWord, hword] at h
  cases n with
  | ofNat n =>
    rw [Int.ofNat_eq_natCast] at h
    exact .unsigned (by omega)
  | negSucc n => exact .negative (by omega)

end Cbor

/-! ## Constants -/

namespace Image

open Cbor

namespace Constant

/-- A constant that the format can hold. A number that equals zero is left out, so of the two zeros
only one comes back. -/
structure Storable (c : Constant) : Prop where
  kind : 0 ≤ c.kind ∧ c.kind ≤ 255
  number : (c.number == 0) = true → c.number = 0
  valid : Utf8.isValid c.text = true
  length_text : c.text.length < Nat.pow 2 63

variable {c d : Constant} {seen : List Int}

/-- The items of the text field. -/
def textItems (c : Constant) : List Item :=
  if c.text.isEmpty then [] else [.unsigned 4, .wholeText c.text]

/-- The items of the number field. -/
def numberItems (c : Constant) : List Item :=
  if c.number == 0 then [] else [.unsigned 3, .float c.number]

/-- The items of the flag field. -/
def flagItems (c : Constant) : List Item :=
  if c.flag then [.unsigned 2, .trueItem] else []

/-- The item of a constant is a map of its kind and of the fields that are not empty. -/
theorem toItem_eq (c : Constant) : c.toItem =
    .map (.unsigned 1 :: .int c.kind :: (c.flagItems ++ (c.numberItems ++ c.textItems))) := by
  simp [toItem, flagItems, numberItems, textItems]

/-- The text comes back, also when it was left out. -/
theorem fields_textItems (h : c.Storable) (hseen : 4 ∉ seen) (hd : d.text = []) :
    fields names set seen c.textItems d = .ok { d with text := c.text } := by
  unfold textItems
  split
  · rename_i hempty
    rw [List.isEmpty_iff.mp hempty, ← hd]
    rfl
  · have hset : set (4 : Nat) (.wholeText c.text) d = .ok { d with text := c.text } := by
      simp only [set, wellText_wholeText h.valid]
      rfl
    rw [fields_cons (by decide) hseen hset]
    rfl

/-- The number and the text come back, also when they were left out. -/
theorem fields_numberItems (h : c.Storable) (hseen : 3 ∉ seen ∧ 4 ∉ seen) (hnumber : d.number = 0)
    (htext : d.text = []) :
    fields names set seen (c.numberItems ++ c.textItems) d
      = .ok { d with number := c.number, text := c.text } := by
  unfold numberItems
  split
  · rename_i hzero
    rw [List.nil_append, fields_textItems h hseen.2 htext, h.number hzero, ← hnumber]
  · have hset : set (3 : Nat) (.float c.number) d = .ok { d with number := c.number } := rfl
    rw [List.cons_append, List.cons_append, fields_cons (by decide) hseen.1 hset, List.nil_append]
    exact fields_textItems h (by simpa using hseen.2) htext

/-- The flag, the number and the text come back, also when they were left out. -/
theorem fields_flagItems (h : c.Storable) (hseen : 2 ∉ seen ∧ 3 ∉ seen ∧ 4 ∉ seen)
    (hflag : d.flag = false) (hnumber : d.number = 0) (htext : d.text = []) :
    fields names set seen (c.flagItems ++ (c.numberItems ++ c.textItems)) d
      = .ok { d with flag := c.flag, number := c.number, text := c.text } := by
  unfold flagItems
  split
  · rename_i hset
    have htrue : set (2 : Nat) .trueItem d = .ok { d with flag := c.flag } := by
      rw [hset]
      rfl
    rw [List.cons_append, List.cons_append, fields_cons (by decide) hseen.1 htrue, List.nil_append]
    exact fields_numberItems h (by simpa using hseen.2) hnumber htext
  · rename_i hset
    rw [List.nil_append, fields_numberItems h hseen.2 hnumber htext, Bool.eq_false_iff.mpr hset,
      ← hflag]

/-- A constant comes back as it was. -/
theorem decode_toItem (h : c.Storable) : decode c.toItem = .ok (some c) := by
  have hkind : set (1 : Nat) (.int c.kind) {} = .ok { kind := c.kind } := by
    simp only [set, integer_int h.kind]
    rfl
  rw [toItem_eq]
  refine decodeWith_of_ok rfl rfl ?_
  dsimp only
  rw [fields_cons (by decide) (List.not_mem_nil) hkind]
  exact fields_flagItems h (by decide) rfl rfl rfl

/-- The item of a constant keeps to the limits. -/
theorem fits_toItem (h : c.Storable) (d : Nat) : c.toItem.Fits (d + 1) := by
  have hkind : (Item.int c.kind).Fits d :=
    fits_int ⟨Int.le_trans (by decide) h.kind.1, Int.le_trans h.kind.2 (by decide)⟩
  obtain ⟨k, hk, hflag⟩ : ∃ k ≤ 1, Entries d k c.flagItems := by
    unfold flagItems
    split
    · exact ⟨1, Nat.le_refl 1, .field (by decide) (.simple (by decide))⟩
    · exact ⟨0, Nat.zero_le 1, .nil⟩
  obtain ⟨m, hm, hnumber⟩ : ∃ m ≤ 1, Entries d m c.numberItems := by
    unfold numberItems
    split
    · exact ⟨0, Nat.zero_le 1, .nil⟩
    · exact ⟨1, Nat.le_refl 1, .field (by decide) (.float c.number)⟩
  obtain ⟨n, hn, htext⟩ : ∃ n ≤ 1, Entries d n c.textItems := by
    unfold textItems
    split
    · exact ⟨0, Nat.zero_le 1, .nil⟩
    · exact ⟨1, Nat.le_refl 1, .field (by decide) (.text h.length_text)⟩
  have hentries := (Entries.field (by decide : 1 < 24) hkind).append
    (hflag.append (hnumber.append htext))
  rw [toItem_eq]
  refine hentries.map ?_
  change 1 + (k + (m + n)) ≤ 131072
  omega

end Constant

/-! ## Images -/

/-- An image that the format can hold. -/
structure Storable (m : Image) : Prop where
  version : minWord ≤ m.version ∧ m.version ≤ maxWord
  code : ∀ b, m.code = some b → b.length < Nat.pow 2 63
  lines : ∀ is, m.lines = some is → ∀ l ∈ is, minWord ≤ l ∧ l ≤ maxWord
  consts : ∀ c ∈ m.consts, c.Storable
  length_consts : m.consts.length ≤ maxElements

/-- The item of the code. -/
def codeItem (m : Image) : Item :=
  match m.code with
  | some b => .bytes b
  | none => .null

/-- The item of the lines. -/
def linesItem (m : Image) : Item :=
  match m.lines with
  | some is => .array (is.map .int)
  | none => .null

/-- The item of the constants. -/
def constsItem (m : Image) : Item :=
  if m.consts.isEmpty then .null else .array (m.consts.map Constant.toItem)

variable {m : Image}

/-- The item of an image is a map of its four sections. -/
theorem toItem_eq (m : Image) : m.toItem =
    .map [.unsigned 1, .int m.version, .unsigned 2, m.codeItem, .unsigned 3, m.linesItem,
      .unsigned 4, m.constsItem] := rfl

/-- The code comes back from its item, also when there is none. -/
theorem byteString_codeItem (m : Image) : byteString m.codeItem = .ok m.code := by
  unfold codeItem
  cases m.code with
  | none => rfl
  | some b => exact byteString_bytes b

/-- The lines come back from their item, also when there are none. -/
theorem list_linesItem (h : m.Storable) :
    list (integer minWord maxWord) 0 m.linesItem = .ok m.lines := by
  have hlines := h.lines
  unfold linesItem
  cases hm : m.lines with
  | none => rfl
  | some is => exact list_array fun l hl => integer_int (hlines is hm l hl)

/-- The constants come back from their item, also when there are none. -/
theorem list_constsItem (h : m.Storable) :
    (list Constant.decode {} m.constsItem).map (Option.getD · []) = .ok m.consts := by
  unfold constsItem
  split
  · rename_i hempty
    rw [List.isEmpty_iff.mp hempty]
    rfl
  · rw [list_array fun c hc => Constant.decode_toItem (h.consts c hc)]
    rfl

/-- An image comes back as it was. -/
theorem decode_toItem (h : m.Storable) : decode m.toItem = .ok (some m) := by
  have hversion : set (1 : Nat) (.int m.version) {} = .ok { version := m.version } := by
    simp only [set, integer_int h.version]
    rfl
  have hcode (m' : Image) : set (2 : Nat) m.codeItem m' = .ok { m' with code := m.code } := by
    simp only [set, byteString_codeItem]
    rfl
  have hlines (m' : Image) : set (3 : Nat) m.linesItem m' = .ok { m' with lines := m.lines } := by
    simp only [set, list_linesItem h]
    rfl
  have hconsts (m' : Image) (hm' : m'.consts = []) :
      set (4 : Nat) m.constsItem m' = .ok { m' with consts := m.consts } := by
    have hlist := list_constsItem h
    simp only [set, hm']
    cases hread : list Constant.decode {} m.constsItem with
    | error e =>
      rw [hread] at hlist
      cases hlist
    | ok consts? =>
      rw [hread] at hlist
      have hvalue : consts?.getD [] = m.consts := Except.ok.inj hlist
      rw [← hvalue]
      rfl
  rw [toItem_eq]
  refine decodeWith_of_ok rfl rfl ?_
  dsimp only
  rw [fields_cons (by decide) (by decide) hversion, fields_cons (by decide) (by decide) (hcode _),
    fields_cons (by decide) (by decide) (hlines _),
    fields_cons (by decide) (by decide) (hconsts _ rfl)]
  rfl

/-- The entries before the lines keep to the limits. -/
theorem entries_head (h : m.Storable) (d : Nat) :
    Entries d 2 [.unsigned 1, .int m.version, .unsigned 2, m.codeItem] := by
  have hcode : m.codeItem.Fits d := by
    have hlength := h.code
    unfold codeItem
    cases hm : m.code with
    | none => exact .simple (by decide)
    | some b => exact .bytes (hlength b hm)
  exact (Entries.field (by decide) (fits_int h.version)).append (.field (by decide) hcode)

/-- An image keeps to the limits of the reader if there are not too many lines. -/
theorem fits_toItem (h : m.Storable) (hlines : ∀ is, m.lines = some is → is.length ≤ maxElements)
    (d : Nat) : m.toItem.Fits (d + 3) := by
  have hlinesItem : m.linesItem.Fits (d + 2) := by
    have hwords := h.lines
    unfold linesItem
    cases hm : m.lines with
    | none => exact .simple (by decide)
    | some is =>
      refine .array (by rw [List.length_map]; exact hlines is hm) ?_
      exact List.forall_mem_map.mpr fun l hl => fits_int (hwords is hm l hl)
  have hconstsItem : m.constsItem.Fits (d + 2) := by
    unfold constsItem
    split
    · exact .simple (by decide)
    · refine .array (by rw [List.length_map]; exact h.length_consts) ?_
      exact List.forall_mem_map.mpr fun c hc => Constant.fits_toItem (h.consts c hc) d
  have hentries := (entries_head h (d + 2)).append
    ((Entries.field (by decide : 3 < 24) hlinesItem).append
      (.field (by decide : 4 < 24) hconstsItem))
  exact hentries.map (by decide)

/-- An image within the limits is read as it was written. -/
theorem ofBytes_toBytes (h : m.Storable)
    (hlines : ∀ is, m.lines = some is → is.length ≤ maxElements) :
    ofBytes m.toBytes = .ok m := by
  have hread : read m.toItem.write = .ok m.toItem := read_write (fits_toItem h hlines 29)
  simp only [ofBytes, toBytes, hread, bind, Except.bind, decode_toItem h]
  rfl

/-- An image with too many lines is malformed to the reader. -/
theorem ofBytes_toBytes_of_lt (h : m.Storable) {is : List Int} (hm : m.lines = some is)
    (hlt : maxElements < is.length) (hword : is.length < Nat.pow 2 64) :
    ofBytes m.toBytes = .error .malformed := by
  have hlinesItem : m.linesItem = .array (is.map .int) := by rw [linesItem, hm]
  have hrejects : Rejects (item 31) m.linesItem .malformed := by
    rw [hlinesItem]
    exact rejects_array (by rw [List.length_map]; exact hlt)
      (by rw [List.length_map]; exact hword) 30
  have hbefore : ∀ i ∈ [Item.unsigned 1, .int m.version, .unsigned 2, m.codeItem, .unsigned 3],
      i.Fits 31 :=
    List.forall_mem_append.mpr ⟨(entries_head h 31).fits,
      List.forall_mem_singleton.mpr (.unsigned (by decide))⟩
  have hmap : Rejects (item maxDepth) m.toItem .malformed :=
    rejects_map (n := 4) hbefore hrejects rfl (by decide)
  simp only [ofBytes, toBytes, read_of_rejects hmap]
  rfl

/-! ## Chunks -/

/-- The values come back from their constants. -/
theorem values_map_ofValue (index : Nat) (vs seen : List Value) :
    values index (vs.map Constant.ofValue) seen = .ok (seen.reverse ++ vs) := by
  induction vs generalizing index seen with
  | nil => simp [values]
  | cons v vs ih =>
    have hvalue : (Constant.ofValue v).toValue? = some v := by cases v <;> rfl
    rw [List.map_cons, values, hvalue]
    simp only
    rw [ih, List.reverse_cons, List.append_assoc]
    rfl

end Image

/-- A value that the format can hold. -/
def Value.Storable : Value → Prop
  | number x => (x == 0) = true → x = 0
  | text b => Utf8.isValid b = true ∧ b.length < Nat.pow 2 63
  | _ => True

/-- The constant of a value that the format can hold is one it can hold. -/
theorem Value.Storable.constant {v : Value} (h : v.Storable) :
    (Image.Constant.ofValue v).Storable := by
  have hkind : ∀ k ∈ [(0 : Int), 1, 2, 3], 0 ≤ k ∧ k ≤ 255 := by decide
  have hshort : ([] : Bytes).length < Nat.pow 2 63 := by decide
  cases v with
  | nil => exact ⟨hkind 0 (by decide), fun _ => rfl, rfl, hshort⟩
  | bool b => exact ⟨hkind 1 (by decide), fun _ => rfl, rfl, hshort⟩
  | number x => exact ⟨hkind 2 (by decide), h, rfl, hshort⟩
  | text b => exact ⟨hkind 3 (by decide), fun _ => rfl, h.1, h.2⟩

namespace Chunk

open Cbor Image

/-- A chunk that the format can hold. Only an empty section is saved with the mark that it is kept;
on any other section the mark is lost. -/
structure Storable (c : Chunk) : Prop where
  code : c.code.length < Nat.pow 2 63
  lines : ∀ l ∈ c.lines, minWord ≤ l ∧ l ≤ maxWord
  consts : ∀ v ∈ c.consts, v.Storable
  length_consts : c.consts.length ≤ maxElements
  keepsCode : c.keepsCode = true → c.code = []
  keepsLines : c.keepsLines = true → c.lines = []

variable {c : Chunk}

/-- A section that is kept holds what it was made from. -/
theorem mem_section? {α : Type} {kept : Bool} {xs ys : List α} (h : section? kept xs = some ys) :
    xs = ys := by
  unfold section? at h
  split at h
  · cases h
  · exact Option.some.inj h

/-- The image of a chunk that the format can hold is one it can hold. -/
theorem Storable.image (h : c.Storable) : (ofChunk c).Storable where
  version := (by decide : minWord ≤ currentVersion ∧ currentVersion ≤ maxWord)
  code := by
    intro b hb
    rw [← mem_section? hb]
    exact h.code
  lines := by
    intro is his
    rw [← mem_section? his]
    exact h.lines
  consts := List.forall_mem_map.mpr fun v hv => (h.consts v hv).constant
  length_consts := by
    rw [ofChunk, List.length_map]
    exact h.length_consts

/-- A section holds its elements, whether or not it is kept. -/
theorem getD_section? {α : Type} (kept : Bool) (xs : List α) : (section? kept xs).getD [] = xs := by
  unfold section?
  split
  · rename_i hempty
    rw [Bool.and_eq_true, List.isEmpty_iff] at hempty
    rw [hempty.1]
    rfl
  · rfl

/-- A section is kept though it is empty just when it has the mark for it. -/
theorem section?_eq_some_nil_iff {α : Type} {kept : Bool} {xs : List α}
    (h : kept = true → xs = []) : section? kept xs = some [] ↔ kept = true := by
  cases kept with
  | false => cases xs <;> simp [section?]
  | true => simp [section?, h rfl]

/-- A chunk that verification accepts comes back from its image. -/
theorem toChunk_ofChunk (h : c.Storable) (hdefect : c.defect? = none) :
    (ofChunk c).toChunk = .ok c := by
  have hversion : ¬ (ofChunk c).version ≠ currentVersion := fun hne => hne rfl
  have hvalues : values 0 (ofChunk c).consts [] = .ok c.consts :=
    values_map_ofValue 0 c.consts []
  have hcode : (ofChunk c).code.getD [] = c.code := getD_section? ..
  have hlines : (ofChunk c).lines.getD [] = c.lines := getD_section? ..
  have hkeepsCode : decide ((ofChunk c).code = some []) = c.keepsCode := by
    rw [Bool.eq_iff_iff, decide_eq_true_eq]
    exact section?_eq_some_nil_iff h.keepsCode
  have hkeepsLines : decide ((ofChunk c).lines = some []) = c.keepsLines := by
    rw [Bool.eq_iff_iff, decide_eq_true_eq]
    exact section?_eq_some_nil_iff h.keepsLines
  unfold toChunk
  rw [if_neg hversion]
  simp only [hvalues, hcode, hlines, hkeepsCode, hkeepsLines, hdefect, bind, Except.bind, pure,
    Except.pure]

/-- A chunk that the format can hold comes back as it was. -/
theorem load_save (h : c.Storable) (hlines : c.lines.length ≤ maxElements)
    (hdefect : c.defect? = none) : load c.save = .ok c := by
  have hread : ofBytes (ofChunk c).toBytes = .ok (ofChunk c) := by
    refine ofBytes_toBytes h.image fun is his => ?_
    rw [← mem_section? his]
    exact hlines
  simp only [load, save, hread]
  exact toChunk_ofChunk h hdefect

/-- A chunk with too many lines is saved, but its image cannot be loaded. -/
theorem load_save_of_lt (h : c.Storable) (hlt : maxElements < c.lines.length)
    (hword : c.lines.length < Nat.pow 2 64) : load c.save = .error (.unreadable .malformed) := by
  have hlines : (ofChunk c).lines = some c.lines := by
    have hcons : c.lines.isEmpty = false := by
      cases hnil : c.lines with
      | nil =>
        rw [hnil] at hlt
        cases hlt
      | cons l ls => rfl
    simp only [ofChunk, section?, hcons, Bool.false_and]
    rfl
  have hread : ofBytes (ofChunk c).toBytes = .error .malformed :=
    ofBytes_toBytes_of_lt h.image hlines hlt hword
  simp only [load, save, hread]
  rfl

end Chunk

/-! ## Compiled chunks -/

open Grammar

/-- The format can hold every compiled chunk, but for the number of its lines. -/
theorem storable_of_compile {source : Bytes} {c : Chunk} (h : compile source = .ok c)
    (hlength : source.length < Nat.pow 2 60) : c.Storable := by
  have hwithin := within_of_compile h
  have hbound : Nat.pow 2 60 = 1152921504606846976 := rfl
  have hword : Nat.pow 2 63 = 9223372036854775808 := rfl
  obtain ⟨hkeepsCode, hkeepsLines⟩ : c.keepsCode = false ∧ c.keepsLines = false := by
    obtain ⟨p, -, -, rfl⟩ := exists_program_of_compile h
    exact ⟨rfl, rfl⟩
  refine ⟨?_, ?_, ?_, ?_, by simp [hkeepsCode], by simp [hkeepsLines]⟩
  · have hsize : c.code.length ≤ 7 * source.length + 3 := hwithin.size_le
    omega
  · intro l hl
    have hline := hwithin.lines l hl
    simp only [Cbor.minWord, Cbor.maxWord, hword]
    omega
  · intro v hv
    have hregular := hwithin.regular v hv
    cases v with
    | nil => trivial
    | bool b => trivial
    | number x => exact (Number.Unsigned.beq_iff hregular Number.unsigned_zero).mp
    | text b =>
      obtain ⟨cs, rfl, hcs⟩ := hwithin.texts b hv
      have hbytes := Utf8.length_encode_le cs
      exact ⟨Utf8.isValid_encode cs, by omega⟩
  · exact Nat.le_trans hwithin.length_consts (by decide)

section Compiled

variable {source : Bytes} {c : Chunk}

/-- A compiled chunk with no more bytes of code than an array may have elements comes back. -/
theorem load_save_of_le (h : compile source = .ok c) (hlength : source.length < Nat.pow 2 60)
    (hle : c.size ≤ Cbor.maxElements) : Chunk.load c.save = .ok c := by
  obtain ⟨is, hcomposed⟩ := exists_composed_of_compile h
  have hlines : c.lines.length ≤ Cbor.maxElements := by
    rw [hcomposed.length_lines]
    exact hle
  exact Chunk.load_save (storable_of_compile h hlength) hlines hcomposed.defect?_eq_none

/-- A compiled chunk with more bytes of code than that does not. -/
theorem load_save_of_lt (h : compile source = .ok c) (hlength : source.length < Nat.pow 2 60)
    (hlt : Cbor.maxElements < c.size) : Chunk.load c.save = .error (.unreadable .malformed) := by
  have hstorable := storable_of_compile h hlength
  obtain ⟨is, hcomposed⟩ := exists_composed_of_compile h
  refine Chunk.load_save_of_lt hstorable ?_ ?_
  · rw [hcomposed.length_lines]
    exact hlt
  · rw [hcomposed.length_lines]
    exact Nat.lt_trans hstorable.code (by decide)

/-- The image of a compiled chunk: if the code has no more bytes than an array may have elements,
the chunk comes back as it was, with the same code, lines and constants; if it has more, its image
is written but cannot be loaded. -/
theorem load_save_of_compile (h : compile source = .ok c)
    (hlength : source.length < Nat.pow 2 60) :
    Chunk.load c.save = if c.size ≤ Cbor.maxElements then .ok c
      else .error (.unreadable .malformed) := by
  split
  · rename_i hle
    exact load_save_of_le h hlength hle
  · rename_i hlt
    exact load_save_of_lt h hlength (Nat.lt_of_not_le hlt)

end Compiled

/-- A chunk with numbers, texts and jumps on two lines comes back as it was. -/
theorem load_save_of_compile_twoLines :
    ∃ c, compile Machine.twoLines = .ok c ∧ Chunk.load c.save = .ok c := by
  have hcompile : compile Machine.twoLines = .ok (Compilation.ofSource Machine.twoLines).chunk := by
    rw [compile_eq, if_pos (by decide +kernel)]
  refine ⟨_, hcompile, ?_⟩
  rw [load_save_of_compile hcompile (by decide), if_pos (by decide +kernel)]

/-! ### A program that is too long -/

/-- The statement `nil;`, on the first line. -/
def nilSentence : Sentence :=
  .expr (.literal ⟨.kwNil, ['n', 'i', 'l'], 1⟩ .nil) (some ⟨.semicolon, [';'], 1⟩)

/-- The text of as many statements `nil;`, all on one line. -/
def nils : Nat → List Char
  | 0 => []
  | n + 1 => 'n' :: 'i' :: 'l' :: ';' :: nils n

/-- The tokens of that text. -/
def nilTokens : Nat → List Token
  | 0 => []
  | n + 1 => ⟨.kwNil, ['n', 'i', 'l'], 1⟩ :: ⟨.semicolon, [';'], 1⟩ :: nilTokens n

/-- Each statement has four characters. -/
theorem length_nils (n : Nat) : (nils n).length = 4 * n := by
  induction n with
  | zero => rfl
  | succ n ih =>
    simp only [nils, List.length_cons, ih]
    omega

/-- None of the tokens is stray. -/
theorem kind_nilTokens (n : Nat) : ∀ t ∈ nilTokens n, t.kind ≠ .stray := by
  induction n with
  | zero => exact List.forall_mem_nil _
  | succ n ih => exact List.forall_mem_cons.mpr ⟨nofun, List.forall_mem_cons.mpr ⟨nofun, ih⟩⟩

/-- The text is scanned as these tokens. -/
theorem scans_nils (n : Nat) : Token.Scans 1 (nils n) (nilTokens n) 1 := by
  induction n with
  | zero => exact .done
  | succ n ih =>
    have hword : Token.Stretch 'n' ['i', 'l'] (';' :: nils n) (some .kwNil) := by
      refine .word rfl ⟨List.forall_mem_cons.mpr ⟨rfl, List.forall_mem_singleton.mpr rfl⟩, ?_⟩
      intro d hd
      obtain rfl : ';' = d := by simpa using hd
      rfl
    have hsemicolon : Token.Stretch ';' [] (nils n) (some .semicolon) := .single (by decide)
    exact .token hword (.token hsemicolon ih)

/-- The tokens are a program of as many statements. -/
theorem sentences_nils (n : Nat) : Sentences (nilTokens n) (List.replicate n nilSentence) := by
  induction n with
  | zero => exact .nil
  | succ n ih =>
    have hliteral : Literal ⟨.kwNil, ['n', 'i', 'l'], 1⟩ .nil := .nil rfl
    exact .expr hliteral.derives rfl ih

/-- The program keeps the limits, as it has no constants and no operators. -/
theorem admitted_nils (pool : Pool) (n : Nat) :
    Program.Admitted pool (List.replicate n nilSentence) := by
  induction n generalizing pool with
  | zero => trivial
  | succ n ih => exact ⟨Tree.fits_literal_iff.mpr rfl, ih _⟩

/-- Each statement becomes two bytes of code, except that the last one keeps its value. -/
theorem size_sentencesThen_nils (pool : Pool) (after : Code) (n : Nat) :
    2 * n + after.size
      ≤ (Machine.sentencesThen pool after (List.replicate n nilSentence)).size + 1 := by
  induction n with
  | zero =>
    rw [Nat.mul_zero, Nat.zero_add]
    exact Nat.le_succ _
  | succ n ih =>
    -- the last statement leaves its value, every other one drops it
    cases n with
    | zero =>
      have hsize : (Machine.sentencesThen pool after [nilSentence]).size = 1 + after.size := rfl
      rw [List.replicate_one, hsize]
      omega
    | succ n =>
      have hsize : (Machine.sentencesThen pool after (List.replicate (n + 2) nilSentence)).size
          = 1 + (1 + (Machine.sentencesThen pool after
              (List.replicate (n + 1) nilSentence)).size) := rfl
      rw [hsize]
      omega

/-- Such programs are accepted, whatever their length, and have two bytes of code for each
statement. -/
theorem exists_compile_nils (n : Nat) :
    ∃ c, compile (Utf8.encode (nils n)) = .ok c ∧ 2 * n ≤ c.size := by
  have hscan : Token.scan (nils n) = ⟨nilTokens n, 1⟩ := Token.scans_iff.mp (scans_nils n)
  have hcompile : compile (Utf8.encode (nils n))
      = .ok (Compilation.ofSource (Utf8.encode (nils n))).chunk := by
    refine compile_of_sentences ?_ ?_ (admitted_nils [] n) <;> rw [Utf8.decode_encode, hscan]
    · exact kind_nilTokens n
    · exact sentences_nils n
  refine ⟨_, hcompile, ?_⟩
  obtain ⟨p, hp, -, hc⟩ := exists_program_of_compile hcompile
  rw [Utf8.decode_encode, hscan] at hp hc
  obtain rfl := sentences_unique hp (sentences_nils n)
  have hsize := size_sentencesThen_nils (Pool.addAll [] (literals (List.replicate n nilSentence)))
    (Machine.returnCode 1 (Machine.givesResult (List.replicate n nilSentence))) n
  have hreturn (result : Bool) : 1 ≤ (Machine.returnCode 1 result).size := by
    cases result <;> decide
  have hpositive := hreturn (Machine.givesResult (List.replicate n nilSentence))
  have hcounted := Machine.counted_sentencesThen
    (Pool.addAll [] (literals (List.replicate n nilSentence)))
    (Machine.counted_returnCode 1 (Machine.givesResult (List.replicate n nilSentence)))
    (List.replicate n nilSentence)
  have hbytes : (Compilation.ofSource (Utf8.encode (nils n))).chunk.size
      = (Machine.sentencesThen (Pool.addAll [] (literals (List.replicate n nilSentence)))
          (Machine.returnCode 1 (Machine.givesResult (List.replicate n nilSentence)))
          (List.replicate n nilSentence)).bytes.length := congrArg Chunk.size hc
  rw [hbytes, ← hcounted]
  omega

/-- The image of a program of 65537 statements is written, but cannot be loaded. -/
theorem load_save_of_compile_nils :
    ∃ c, compile (Utf8.encode (nils 65537)) = .ok c ∧
      Chunk.load c.save = .error (.unreadable .malformed) := by
  obtain ⟨c, hcompile, hsize⟩ := exists_compile_nils 65537
  have hbound : Nat.pow 2 60 = 1152921504606846976 := rfl
  have hlength : (Utf8.encode (nils 65537)).length < Nat.pow 2 60 := by
    have hle := Utf8.length_encode_le (nils 65537)
    rw [length_nils] at hle
    omega
  have hlt : Cbor.maxElements < c.size := by
    rw [Cbor.maxElements]
    omega
  exact ⟨c, hcompile, load_save_of_lt hcompile hlength hlt⟩

end Lox
