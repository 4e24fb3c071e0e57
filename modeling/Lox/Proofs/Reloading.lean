import Lox.Proofs.Image

/-!
# Loading, saving and loading again

An image can be spelled in many ways, and is always saved in one. Whatever is read keeps to the
limits of the reader (`Cbor.item_within`): arrays are no longer than they may be, and a text is no
longer than the bytes it was read from. So whatever is made from it can be saved and read again, and
a loaded chunk comes back, with one exception. A number that equals zero is not saved, and zero is
what comes back for it. A constant that is the negative zero loses its sign.

`load_save_of_load` says that the chunk comes back with its zeros unsigned (`Chunk.plain`), so as it
was exactly if none of its constants is the negative zero. `sign_lost` is an image whose chunk
divides by such a constant: after it is saved and loaded again, the result has another sign.

That is all that is lost, and it is lost at once. `save_of_load_save` says that what is saved is a
normal form: it is loaded as a chunk that is saved as the same bytes, and two images are saved alike
exactly if their chunks differ in nothing but the signs of zeros.
-/

namespace Lox

/-! ## Texts put together -/

namespace Utf8

/-- Two well-formed texts make a well-formed one. -/
theorem isValid_append {as bs : Bytes} (ha : isValid as = true) (hb : isValid bs = true) :
    isValid (as ++ bs) = true := by
  rw [← encode_decode ha, ← encode_decode hb, ← encode_append]
  exact isValid_encode _

/-- Well-formed parts make a well-formed text. -/
theorem isValid_flatten {parts : List Bytes} (h : parts.all isValid = true) :
    isValid parts.flatten = true := by
  induction parts with
  | nil => rfl
  | cons part parts ih =>
    rw [List.all_cons, Bool.and_eq_true] at h
    exact isValid_append h.1 (ih h.2)

end Utf8

/-! ## What is read keeps to the limits -/

namespace Cbor

/-- What the reader promises of an item read from no more than `n` bytes. -/
inductive Item.Within (n : Nat) : Item → Prop where
  | unsigned (k : Nat) : Within n (.unsigned k)
  | negative (k : Nat) : Within n (.negative k)
  | bytes (b : Bytes) : Within n (.bytes b)
  | text {chunks : List Bytes} (h : chunks.flatten.length ≤ n) : Within n (.text chunks)
  | array {items : List Item} (hlength : items.length ≤ maxElements)
      (h : ∀ i ∈ items, Within n i) : Within n (.array items)
  | map {flat : List Item} (h : ∀ i ∈ flat, Within n i) : Within n (.map flat)
  | tag (k : Nat) {content : Item} (h : Within n content) : Within n (.tag k content)
  | simple (k : Nat) : Within n (.simple k)
  | float (x : Float) : Within n (.float x)

/-- A reader that gives such items. -/
def Keeps (n : Nat) (reader : Reader Item) : Prop :=
  ∀ bs i rest, bs.length ≤ n → reader bs = .ok (i, rest) → i.Within n ∧ rest.length ≤ n

/-- What succeeds in two steps succeeds in each. -/
theorem exists_of_bind {ε α β : Type} {x : Except ε α} {f : α → Except ε β} {b : β}
    (h : (x >>= f) = .ok b) : ∃ a, x = .ok a ∧ f a = .ok b := by
  cases x with
  | error e => cases h
  | ok a => exact ⟨a, rfl, h⟩

variable {n : Nat} {bs front rest : Bytes} {a : Argument} {i : Item}

/-- Taking bytes loses none. -/
theorem length_of_take {k : Nat} (h : take k bs = .ok (front, rest)) :
    front.length + rest.length = bs.length := by
  simp only [take] at h
  split at h
  · cases h
    rw [← List.length_append, List.take_append_drop]
  · cases h

/-- Reading a string of known length loses no byte. -/
theorem length_of_definite {k : Nat} (h : definite k bs = .ok (front, rest)) :
    front.length + rest.length = bs.length := by
  unfold definite at h
  split at h
  · exact length_of_take h
  · cases h

/-- A part and what is left are no more than there was. -/
theorem length_of_chunk {major : Major} {b : UInt8} (h : chunk major b bs = .ok (front, rest)) :
    front.length + rest.length ≤ bs.length := by
  unfold chunk at h
  split at h
  · split at h
    · rename_i ha
      rw [length_of_definite h]
      exact length_argument_le ha
    · cases h
    · cases h
  · cases h

/-- The parts and what is left are no more than there was. -/
theorem length_of_chunks {major : Major} {seen parts : List Bytes}
    (h : chunks major bs seen = .ok (parts, rest)) :
    parts.flatten.length + rest.length ≤ seen.flatten.length + bs.length := by
  fun_induction chunks major bs seen with
  | case1 => cases h
  | case2 bs seen =>
    cases h
    rw [List.length_flatten, List.length_flatten, List.map_reverse, List.sum_reverse,
      List.length_cons]
    omega
  | case3 => cases h
  | case4 b bs seen hbreak front rest' hread ih =>
    have hchunk := length_of_chunk hread
    have hrest := ih h
    rw [List.flatten_cons, List.length_append] at hrest
    rw [List.length_cons]
    omega

/-! A reader for what lies within is given; `n` bounds the bytes there are. -/

section Containers

variable {item : Reader Item} {seen items : List Item}

/-- Reading so many items gives that many, each within the limits. -/
theorem elements_within (hitem : Keeps n item) {k : Nat} (hbs : bs.length ≤ n)
    (hseen : ∀ i ∈ seen, i.Within n) (h : elements item k bs seen = .ok (items, rest)) :
    (∀ i ∈ items, i.Within n) ∧ items.length = seen.length + k ∧ rest.length ≤ n := by
  induction k generalizing bs seen with
  | zero =>
    cases h
    refine ⟨?_, List.length_reverse, hbs⟩
    intro i hi
    exact hseen i (List.mem_reverse.mp hi)
  | succ k ih =>
    rw [elements] at h
    split at h
    · cases h
    · rename_i i rest' hread
      obtain ⟨hi, hrest'⟩ := hitem bs i rest' hbs hread
      obtain ⟨hall, hlength, hrest⟩ := ih hrest' (List.forall_mem_cons.mpr ⟨hi, hseen⟩) h
      refine ⟨hall, ?_, hrest⟩
      rw [hlength, List.length_cons]
      omega

/-- Reading items up to a break gives no more than there is room for, each within the limits. -/
theorem elementsToBreak_within (hitem : Keeps n item) {room : Nat} (hbs : bs.length ≤ n)
    (hseen : ∀ i ∈ seen, i.Within n)
    (h : elementsToBreak item room bs seen = .ok (items, rest)) :
    (∀ i ∈ items, i.Within n) ∧ items.length ≤ seen.length + room ∧ rest.length ≤ n := by
  fun_induction elementsToBreak item room bs seen with
  | case1 => cases h
  | case2 room bs seen =>
    cases h
    refine ⟨?_, by rw [List.length_reverse]; omega, Nat.le_of_succ_le hbs⟩
    intro i hi
    exact hseen i (List.mem_reverse.mp hi)
  | case3 => cases h
  | case4 => cases h
  | case5 b bs seen hbreak i rest' hread room ih =>
    obtain ⟨hi, hrest'⟩ := hitem (b :: bs) i rest' hbs hread
    obtain ⟨hall, hlength, hrest⟩ := ih hrest' (List.forall_mem_cons.mpr ⟨hi, hseen⟩) h
    refine ⟨hall, ?_, hrest⟩
    rw [List.length_cons] at hlength
    omega

/-- The items of an array are within the limits, and so is their number. -/
theorem arrayItems_within (hitem : Keeps n item) (hbs : bs.length ≤ n)
    (h : arrayItems item a bs = .ok (items, rest)) :
    (∀ i ∈ items, i.Within n) ∧ items.length ≤ maxElements ∧ rest.length ≤ n := by
  cases a with
  | number k wide =>
    simp only [arrayItems] at h
    split at h
    · rename_i k' hcount
      obtain ⟨hall, hlength, hrest⟩ := elements_within hitem hbs (List.forall_mem_nil _) h
      refine ⟨hall, ?_, hrest⟩
      unfold count at hcount
      split at hcount
      · cases hcount
        rw [hlength, List.length_nil, Nat.zero_add]
        assumption
      · cases hcount
    · cases h
  | indefinite =>
    obtain ⟨hall, hlength, hrest⟩ := elementsToBreak_within hitem hbs (List.forall_mem_nil _) h
    rw [List.length_nil, Nat.zero_add] at hlength
    exact ⟨hall, hlength, hrest⟩

/-- The items of a map are within the limits. -/
theorem mapItems_within (hitem : Keeps n item) (hbs : bs.length ≤ n)
    (h : mapItems item a bs = .ok (items, rest)) :
    (∀ i ∈ items, i.Within n) ∧ rest.length ≤ n := by
  cases a with
  | number k wide =>
    simp only [mapItems] at h
    split at h
    · obtain ⟨hall, -, hrest⟩ := elements_within hitem hbs (List.forall_mem_nil _) h
      exact ⟨hall, hrest⟩
    · cases h
  | indefinite =>
    simp only [mapItems] at h
    split at h
    · rename_i items' rest' hread
      obtain ⟨hall, -, hrest⟩ := elementsToBreak_within hitem hbs (List.forall_mem_nil _) hread
      split at h
      · cases h
        exact ⟨hall, hrest⟩
      · cases h
    · cases h

end Containers

/-- A simple value is within the limits. -/
theorem simpleItem_within (h : simpleItem a = .ok i) : i.Within n := by
  unfold simpleItem at h
  split at h
  · cases h
    exact .simple _
  · split at h
    · cases h
    · cases h
      exact .simple _
  · cases h
    exact .float _
  · cases h
    exact .float _
  · cases h
    exact .float _
  · cases h

/-- An item without a tag is within the limits, if the reader for what lies within keeps them. -/
theorem untagged_within {inner? : Option (Reader Item)} (hinner : ∀ item ∈ inner?, Keeps n item)
    {major : Major} (hbs : bs.length ≤ n) (h : untagged inner? major a bs = .ok (i, rest)) :
    i.Within n ∧ rest.length ≤ n := by
  unfold untagged at h
  cases major with
  | unsigned =>
    obtain ⟨k, -, hk⟩ := exists_of_bind h
    cases hk
    exact ⟨.unsigned k, hbs⟩
  | negative =>
    obtain ⟨k, -, hk⟩ := exists_of_bind h
    cases hk
    exact ⟨.negative k, hbs⟩
  | bytes =>
    cases a with
    | number k wide =>
      obtain ⟨⟨front, rest'⟩, hread, hk⟩ := exists_of_bind h
      cases hk
      have hlength := length_of_definite hread
      exact ⟨.bytes front, by omega⟩
    | indefinite =>
      obtain ⟨⟨parts, rest'⟩, hread, hk⟩ := exists_of_bind h
      cases hk
      have hlength := length_of_chunks hread
      rw [List.flatten_nil, List.length_nil] at hlength
      exact ⟨.bytes _, by omega⟩
  | text =>
    cases a with
    | number k wide =>
      obtain ⟨⟨front, rest'⟩, hread, hk⟩ := exists_of_bind h
      cases hk
      have hlength := length_of_definite hread
      refine ⟨.text ?_, by omega⟩
      rw [List.flatten_singleton]
      omega
    | indefinite =>
      obtain ⟨⟨parts, rest'⟩, hread, hk⟩ := exists_of_bind h
      cases hk
      have hlength := length_of_chunks hread
      rw [List.flatten_nil, List.length_nil] at hlength
      exact ⟨.text (by omega), by omega⟩
  | array =>
    cases inner? with
    | none => cases h
    | some item =>
      obtain ⟨⟨items, rest'⟩, hread, hk⟩ := exists_of_bind h
      cases hk
      obtain ⟨hall, hlength, hrest⟩ := arrayItems_within (hinner item rfl) hbs hread
      exact ⟨.array hlength hall, hrest⟩
  | map =>
    cases inner? with
    | none => cases h
    | some item =>
      obtain ⟨⟨items, rest'⟩, hread, hk⟩ := exists_of_bind h
      cases hk
      obtain ⟨hall, hrest⟩ := mapItems_within (hinner item rfl) hbs hread
      exact ⟨.map hall, hrest⟩
  | tag | simple =>
    obtain ⟨j, hread, hk⟩ := exists_of_bind h
    cases hk
    exact ⟨simpleItem_within hread, hbs⟩

/-- Reading a head leaves no more bytes than there were. -/
theorem length_of_head {major : Major} (h : head bs = .ok ((major, a), rest)) :
    rest.length ≤ bs.length := by
  cases bs with
  | nil => cases h
  | cons b bs =>
    obtain ⟨⟨a', rest'⟩, hargument, hrest⟩ := exists_of_bind h
    have hle := length_argument_le hargument
    simp only at hrest
    split at hrest
    · obtain ⟨_, -, hrest⟩ := exists_of_bind hrest
      cases hrest
      exact Nat.le_succ_of_le hle
    · cases hrest
      exact Nat.le_succ_of_le hle

/-- The reader keeps the limits if the reader for what lies within does. -/
theorem itemWith_within {inner? : Option (Reader Item)} (hinner : ∀ item ∈ inner?, Keeps n item) :
    Keeps n (itemWith inner?) := by
  intro bs i rest hbs h
  obtain ⟨⟨⟨major, a⟩, rest'⟩, hhead, h⟩ := exists_of_bind h
  have hrest' := Nat.le_trans (length_of_head hhead) hbs
  simp only at h
  split at h
  · obtain ⟨k, -, h⟩ := exists_of_bind h
    obtain ⟨⟨⟨major', a'⟩, rest''⟩, hhead', h⟩ := exists_of_bind h
    have hrest'' := Nat.le_trans (length_of_head hhead') hrest'
    simp only at h
    split at h
    · cases inner? with
      | none => cases h
      | some item =>
        obtain ⟨⟨content, last⟩, hread, hk⟩ := exists_of_bind h
        cases hk
        obtain ⟨hcontent, hlast⟩ := hinner item rfl rest' content last hrest' hread
        exact ⟨.tag k hcontent, hlast⟩
    · obtain ⟨⟨content, last⟩, hread, hk⟩ := exists_of_bind h
      cases hk
      obtain ⟨hcontent, hlast⟩ := untagged_within hinner hrest'' hread
      exact ⟨.tag k hcontent, hlast⟩
  · exact untagged_within hinner hrest' h

/-- The reader keeps the limits at every depth. -/
theorem item_within (n depth : Nat) : Keeps n (item depth) := by
  induction depth with
  | zero => exact itemWith_within (by simp)
  | succ depth ih =>
    refine itemWith_within ?_
    rintro _ ⟨⟩
    exact ih

/-- What is read from some bytes is within limits that these bytes set. -/
theorem read_within (h : read bs = .ok i) : i.Within bs.length := by
  unfold read at h
  split at h
  · cases h
  · rename_i j hread
    cases h
    exact (item_within bs.length maxDepth bs i [] (Nat.le_refl _) hread).1
  · cases h

/-! ## What is made from it -/

/-- A decoder that makes values with a property from such items. -/
def Makes {α : Type} (n : Nat) (decode : Decoder α) (P : α → Prop) : Prop :=
  ∀ i v, i.Within n → decode i = .ok (some v) → P v

section Makes

variable {α : Type} {decode : Decoder α} {P : α → Prop} {default : α}

/-- A null stands for what was there before. -/
theorem Makes.getD (h : Makes n decode P) (hi : i.Within n) {v? : Option α}
    (hdecode : decode i = .ok v?) {v : α} (hv : P v) : P (v?.getD v) := by
  cases v? with
  | none => exact hv
  | some w => exact h i w hi hdecode

/-- An item without its tags is within the same limits. -/
theorem Item.Within.strip (hi : i.Within n) {j : Item} (h : i.strip = .ok j) : j.Within n := by
  induction hi with
  | tag k hcontent ih =>
    rw [Item.strip] at h
    split at h
    · cases h
    · split at h
      · cases h
        exact .tag k hcontent
      · exact ih h
  | unsigned k => cases h; exact .unsigned k
  | negative k => cases h; exact .negative k
  | bytes b => cases h; exact .bytes b
  | text hlength => cases h; exact .text hlength
  | array hlength hall _ => cases h; exact .array hlength hall
  | map hall _ => cases h; exact .map hall
  | simple k => cases h; exact .simple k
  | float x => cases h; exact .float x

/-- A decoder that looks behind tags makes what it makes from the item there. -/
theorem makes_decodeWith {f : Item → Except Rejection α}
    (h : ∀ i v, i.Within n → f i = .ok v → P v) : Makes n (decodeWith f) P := by
  intro i v hi hdecode
  obtain ⟨j, hstrip, hj⟩ := exists_of_bind hdecode
  split at hj
  · cases hj
  · obtain ⟨w, hw, hsome⟩ := exists_of_bind hj
    cases hsome
    exact h j v (hi.strip hstrip) hw

/-- Integers are made within the bounds. -/
theorem makes_integer (least greatest : Int) :
    Makes n (integer least greatest) (fun k => least ≤ k ∧ k ≤ greatest) := by
  apply makes_decodeWith
  intro i k hi h
  split at h
  · split at h
    · cases h
      assumption
    · cases h
  · cases h

/-- Texts are made well-formed, and no longer than the bytes that were read. -/
theorem makes_wellText :
    Makes n wellText (fun b => Utf8.isValid b = true ∧ b.length ≤ n) := by
  apply makes_decodeWith
  intro i b hi h
  split at h
  · rename_i chunks
    split at h
    · rename_i hvalid
      cases h
      cases hi with
      | text hlength => exact ⟨Utf8.isValid_flatten hvalid, hlength⟩
    · cases h
  · cases h

/-- Every element of a list is made with the property, nulls included. -/
theorem each_makes (h : Makes n decode P) (hdefault : P default) {items : List Item}
    {seen xs : List α} (hitems : ∀ i ∈ items, i.Within n) (hseen : ∀ x ∈ seen, P x)
    (heach : each decode default items seen = .ok xs) :
    xs.length = seen.length + items.length ∧ ∀ x ∈ xs, P x := by
  induction items generalizing seen with
  | nil =>
    cases heach
    refine ⟨List.length_reverse, ?_⟩
    intro x hx
    exact hseen x (List.mem_reverse.mp hx)
  | cons i items ih =>
    obtain ⟨hi, hitems⟩ := List.forall_mem_cons.mp hitems
    rw [each] at heach
    split at heach
    · cases heach
    · rename_i v? hdecode
      have hv : P (v?.getD default) := h.getD hi hdecode hdefault
      obtain ⟨hlength, hall⟩ := ih hitems (List.forall_mem_cons.mpr ⟨hv, hseen⟩) heach
      refine ⟨?_, hall⟩
      rw [hlength, List.length_cons, List.length_cons]
      omega

/-- Lists are made no longer than an array may be, from elements with the property. -/
theorem makes_list (h : Makes n decode P) (hdefault : P default) :
    Makes n (list decode default) (fun xs => xs.length ≤ maxElements ∧ ∀ x ∈ xs, P x) := by
  apply makes_decodeWith
  intro i xs hi hlist
  split at hlist
  · cases hi with
    | array hlength hitems =>
      obtain ⟨hxs, hall⟩ := each_makes h hdefault hitems (List.forall_mem_nil _) hlist
      rw [List.length_nil, Nat.zero_add] at hxs
      exact ⟨hxs ▸ hlength, hall⟩
  · cases hlist

section Records

variable {σ : Type} {Q : σ → Prop} {names : List (Bytes × Int)} {s s' : σ}
  {set : Int → Item → σ → Except Rejection σ}

/-- What every field keeps is kept by all of them. -/
theorem fields_keep (hset : ∀ k i s s', i.Within n → Q s → set k i s = .ok s' → Q s')
    {seen : List Int} {flat : List Item} (hflat : ∀ i ∈ flat, i.Within n) (hs : Q s)
    (h : fields names set seen flat s = .ok s') : Q s' := by
  fun_induction fields names set seen flat s with
  | case1 => cases h
  | case2 seen k v rest s hkey ih =>
    obtain ⟨-, -, hrest⟩ := List.forall_mem_cons.mp hflat |>.imp_right List.forall_mem_cons.mp
    exact ih hrest hs h
  | case3 seen k v rest s m hkey hseen ih =>
    obtain ⟨-, -, hrest⟩ := List.forall_mem_cons.mp hflat |>.imp_right List.forall_mem_cons.mp
    exact ih hrest hs h
  | case4 => cases h
  | case5 seen k v rest s m hkey hseen s'' hstep ih =>
    obtain ⟨-, hv, hrest⟩ := List.forall_mem_cons.mp hflat |>.imp_right List.forall_mem_cons.mp
    exact ih hrest (hset m v s s'' hv hs hstep) h
  | case6 =>
    cases h
    exact hs

/-- Records are made with the property if every field keeps it. -/
theorem makes_record {default : σ} (hdefault : Q default)
    (hset : ∀ k i s s', i.Within n → Q s → set k i s = .ok s' → Q s') :
    Makes n (record names default set) Q := by
  apply makes_decodeWith
  intro i s hi h
  split at h
  · cases hi with
    | map hflat => exact fields_keep hset hflat hdefault h
  · cases h

end Records

end Makes

end Cbor

/-! ## Images that were read -/

namespace Image

open Cbor

variable {n : Nat}

/-- What holds of a constant that was read from no more than `n` bytes. -/
structure Constant.Made (n : Nat) (c : Constant) : Prop where
  kind : 0 ≤ c.kind ∧ c.kind ≤ 255
  text : Utf8.isValid c.text = true ∧ c.text.length ≤ n

/-- Constants are made as `Constant.Made` says. -/
theorem Constant.makes_decode : Makes n Constant.decode (Constant.Made n) := by
  refine makes_record ⟨by decide, rfl, Nat.zero_le n⟩ ?_
  intro k i c c' hi hc h
  unfold Constant.set at h
  split at h
  · obtain ⟨kind?, hkind, h⟩ := exists_of_bind h
    cases h
    exact ⟨(makes_integer 0 255).getD hi hkind hc.kind, hc.text⟩
  · obtain ⟨flag?, -, h⟩ := exists_of_bind h
    cases h
    exact ⟨hc.kind, hc.text⟩
  · obtain ⟨number?, -, h⟩ := exists_of_bind h
    cases h
    exact ⟨hc.kind, hc.text⟩
  · obtain ⟨text?, htext, h⟩ := exists_of_bind h
    cases h
    exact ⟨hc.kind, makes_wellText.getD hi htext hc.text⟩
  · cases h
    exact hc

/-- What holds of an image that was read from no more than `n` bytes. -/
structure Made (n : Nat) (m : Image) : Prop where
  lines : ∀ is ∈ m.lines, is.length ≤ maxElements ∧ ∀ l ∈ is, minWord ≤ l ∧ l ≤ maxWord
  consts : m.consts.length ≤ maxElements ∧ ∀ c ∈ m.consts, c.Made n

/-- An image without sections is such. -/
theorem made_empty (n : Nat) : Made n {} :=
  ⟨by simp, Nat.zero_le _, List.forall_mem_nil _⟩

/-- Images are made as `Made` says. -/
theorem makes_decode : Makes n decode (Made n) := by
  refine makes_record (made_empty n) ?_
  intro k i m m' hi hm h
  unfold set at h
  split at h
  · obtain ⟨version?, -, h⟩ := exists_of_bind h
    cases h
    exact ⟨hm.lines, hm.consts⟩
  · obtain ⟨code?, -, h⟩ := exists_of_bind h
    cases h
    exact ⟨hm.lines, hm.consts⟩
  · obtain ⟨lines?, hlines, h⟩ := exists_of_bind h
    cases h
    refine ⟨?_, hm.consts⟩
    rintro is ⟨⟩
    exact makes_list (makes_integer minWord maxWord) (by decide) i is hi hlines
  · obtain ⟨consts?, hconsts, h⟩ := exists_of_bind h
    cases h
    have hdefault : Constant.Made n {} := ⟨by decide, rfl, Nat.zero_le n⟩
    exact ⟨hm.lines, (makes_list Constant.makes_decode hdefault).getD hi hconsts hm.consts⟩
  · cases h
    exact hm

/-- An image that was read from some bytes is such, within limits that these bytes set. -/
theorem made_of_ofBytes {data : Bytes} {m : Image} (h : ofBytes data = .ok m) :
    m.Made data.length := by
  obtain ⟨i, hread, h⟩ := exists_of_bind h
  obtain ⟨m?, hdecode, h⟩ := exists_of_bind h
  cases h
  exact makes_decode.getD (read_within hread) hdecode (made_empty _)

/-- The values of constants are those that the constants hold. -/
theorem mem_of_values {index : Nat} {cs : List Constant} {seen vs : List Value}
    (h : values index cs seen = .ok vs) :
    vs.length = seen.length + cs.length ∧
      ∀ v ∈ vs, v ∈ seen ∨ ∃ c ∈ cs, c.toValue? = some v := by
  induction cs generalizing index seen with
  | nil =>
    cases h
    refine ⟨List.length_reverse, ?_⟩
    intro v hv
    exact .inl (List.mem_reverse.mp hv)
  | cons c cs ih =>
    rw [values] at h
    split at h
    · rename_i w hw
      obtain ⟨hlength, hmem⟩ := ih h
      refine ⟨?_, ?_⟩
      · rw [hlength, List.length_cons, List.length_cons]
        omega
      · intro v hv
        rcases hmem v hv with hseen | ⟨d, hd, hvalue⟩
        · rcases List.mem_cons.mp hseen with rfl | hseen
          · exact .inr ⟨c, List.mem_cons_self, hw⟩
          · exact .inl hseen
        · exact .inr ⟨d, List.mem_cons_of_mem c hd, hvalue⟩
    · cases h

end Image

/-! ## Zeros without a sign -/

/-- The zero with a sign. -/
def negativeZero : Float :=
  Float.ofBits 0x8000000000000000

/-- A value as it is saved: a number that equals zero has no sign. -/
def Value.plain : Value → Value
  | .number x => .number (if x == 0 then 0 else x)
  | v => v

/-- A chunk as it is saved. -/
def Chunk.plain (c : Chunk) : Chunk :=
  { c with consts := c.consts.map Value.plain }

namespace Number

open Float.Model Float.Model.UnpackedFloat

/-- A number is told by its bits. -/
theorem eq_of_bits {x y : Float}
    (h : x.toModel.toBits.toBitVec = y.toModel.toBits.toBitVec) : x = y := by
  obtain ⟨⟨⟨b⟩, _⟩⟩ := x
  obtain ⟨⟨⟨b'⟩, _⟩⟩ := y
  obtain rfl : b = b' := h
  rfl

/-- Two numbers equal zero. -/
theorem beq_zero_iff (x : Float) : (x == 0) = true ↔ x = 0 ∨ x = negativeZero := by
  constructor
  · intro hzero
    have hbeq : UnpackedFloat.beq x.toModel.unpack (0 : Float).toModel.unpack = true := hzero
    rw [Float.Model.unpack, Float.Model.unpack,
      unpack_beq_unpack_iff x.toModel.valid (0 : Float).toModel.valid] at hbeq
    rcases hbeq.2.2 with hbits | ⟨-, hbits⟩ | ⟨hbits, -⟩
    · exact .inl (eq_of_bits hbits)
    · exact absurd hbits (by decide +kernel)
    · exact .inr (eq_of_bits (hbits.trans (by decide +kernel)))
  · rintro (rfl | rfl)
    · decide +kernel
    · decide +kernel

end Number

namespace Value

variable {v : Value}

/-- A value is saved as it is unless it is the negative zero. -/
theorem plain_eq_iff (v : Value) : v.plain = v ↔ v ≠ .number negativeZero := by
  cases v with
  | number x =>
    rw [plain, number.injEq, Ne, number.injEq]
    by_cases hzero : (x == 0) = true
    · rw [if_pos hzero]
      have hsigned : (0 : Float) ≠ negativeZero := by decide +kernel
      constructor
      · rintro rfl
        exact hsigned
      · intro hne
        exact (((Number.beq_zero_iff x).mp hzero).resolve_right hne).symm
    · rw [if_neg hzero]
      refine ⟨?_, fun _ => rfl⟩
      rintro - rfl
      exact hzero ((Number.beq_zero_iff _).mpr (.inr rfl))
  | nil | bool b | text b => simp [plain]

/-- Nothing is saved of a number that equals zero. -/
theorem toItem_plain (v : Value) :
    (Image.Constant.ofValue v.plain).toItem = (Image.Constant.ofValue v).toItem := by
  cases v with
  | number x =>
    by_cases hzero : (x == 0) = true
    · have hplain : ((0 : Float) == 0) = true := by decide +kernel
      simp only [plain, Image.Constant.ofValue, Image.Constant.toItem, hzero, hplain, if_true]
      rfl
    · simp only [plain, if_neg hzero]
  | nil | bool b | text b => rfl

/-- The value of a constant that was read can be saved without its sign. -/
theorem storable_plain {n : Nat} {d : Image.Constant} (h : d.Made n) (hn : n < Nat.pow 2 63)
    (hvalue : d.toValue? = some v) : v.plain.Storable := by
  have htext : Utf8.isValid d.text = true ∧ d.text.length < Nat.pow 2 63 :=
    ⟨h.text.1, Nat.lt_of_le_of_lt h.text.2 hn⟩
  unfold Image.Constant.toValue? at hvalue
  split at hvalue
  · cases hvalue
    trivial
  · cases hvalue
    trivial
  · cases hvalue
    intro hzero
    split
    · rfl
    · rename_i hne
      rw [if_neg hne] at hzero
      exact absurd hzero hne
  · cases hvalue
    exact htext
  · cases hvalue

end Value

namespace Chunk

open Cbor Image

variable {c : Chunk} {data : Bytes}

/-- Nothing is saved of the signs of zeros. -/
theorem save_plain (c : Chunk) : c.plain.save = c.save := by
  have hitems : (c.plain.consts.map Constant.ofValue).map Constant.toItem =
      (c.consts.map Constant.ofValue).map Constant.toItem := by
    simp only [plain, List.map_map]
    exact List.map_congr_left fun v _ => v.toItem_plain
  have hempty : (c.plain.consts.map Constant.ofValue).isEmpty =
      (c.consts.map Constant.ofValue).isEmpty := by
    simp [plain]
  have hconsts : (ofChunk c.plain).constsItem = (ofChunk c).constsItem := by
    simp only [constsItem, ofChunk, hitems, hempty]
    rfl
  simp only [save, toBytes, toItem_eq, hconsts]
  rfl

/-- A chunk is saved as it is unless one of its constants is the negative zero. -/
theorem plain_eq_iff (c : Chunk) :
    c.plain = c ↔ ∀ v ∈ c.consts, v ≠ .number negativeZero := by
  have hmap : c.consts.map Value.plain = c.consts ↔ ∀ v ∈ c.consts, v.plain = v := by
    simpa using (List.map_eq_map_iff : c.consts.map Value.plain = c.consts.map id ↔ _)
  have hchunk : c.plain = c ↔ c.consts.map Value.plain = c.consts := by
    constructor
    · intro h
      exact congrArg consts h
    · intro h
      rw [plain, h]
  rw [hchunk, hmap]
  exact forall₂_congr fun v _ => v.plain_eq_iff

/-- The signs of zeros do not matter to verification. -/
theorem defect?_plain (c : Chunk) : c.plain.defect? = c.defect? := by
  simp only [defect?, plain, size, List.length_map]

/-- What a chunk takes over from its image. -/
theorem exists_of_load (h : load data = .ok c) :
    ∃ m, ofBytes data = .ok m ∧ values 0 m.consts [] = .ok c.consts ∧
      c.lines = m.lines.getD [] ∧ (c.keepsCode = true → c.code = []) ∧
      (c.keepsLines = true → c.lines = []) ∧ c.defect? = none := by
  obtain ⟨m, hread, hchunk⟩ := exists_of_bind h
  have hm : ofBytes data = .ok m := by
    cases hbytes : ofBytes data with
    | error e =>
      rw [hbytes] at hread
      cases hread
    | ok m' =>
      rw [hbytes] at hread
      cases hread
      rfl
  refine ⟨m, hm, ?_⟩
  have hversion : ¬ m.version ≠ currentVersion := by
    intro hne
    unfold toChunk at hchunk
    rw [if_pos hne] at hchunk
    cases hchunk
  unfold toChunk at hchunk
  rw [if_neg hversion] at hchunk
  obtain ⟨vs, hvalues, hchunk⟩ := exists_of_bind hchunk
  dsimp only at hchunk
  split at hchunk
  · cases hchunk
  · rename_i hdefect
    cases hchunk
    refine ⟨hvalues, rfl, ?_, ?_, hdefect⟩
    · intro hkeeps
      rw [of_decide_eq_true hkeeps]
      rfl
    · intro hkeeps
      rw [of_decide_eq_true hkeeps]
      rfl

/-- A chunk that was loaded can be saved and loaded, without the signs of its zeros. -/
theorem load_save_plain (hlength : data.length < Nat.pow 2 63) (h : load data = .ok c) :
    load c.plain.save = .ok c.plain := by
  obtain ⟨m, hbytes, hvalues, hlines, hkeepsCode, hkeepsLines, hdefect⟩ := exists_of_load h
  have hmade := made_of_ofBytes hbytes
  obtain ⟨hcount, hmem⟩ := mem_of_values hvalues
  rw [List.length_nil, Nat.zero_add] at hcount
  have hwords : c.lines.length ≤ maxElements ∧ ∀ l ∈ c.lines, minWord ≤ l ∧ l ≤ maxWord := by
    rw [hlines]
    cases hm : m.lines with
    | none => exact ⟨Nat.zero_le _, List.forall_mem_nil _⟩
    | some is => exact hmade.lines is hm
  have hcode : c.code.length = c.lines.length := by
    unfold defect? at hdefect
    split at hdefect
    · cases hdefect
    · rename_i heq
      exact not_not.mp heq
  refine load_save ⟨?_, hwords.2, ?_, ?_, hkeepsCode, hkeepsLines⟩ hwords.1 ?_
  · have hle : c.code.length ≤ 131072 := hcode ▸ hwords.1
    have hbound : Nat.pow 2 63 = 9223372036854775808 := rfl
    change c.code.length < _
    omega
  · refine List.forall_mem_map.mpr ?_
    intro v hv
    rcases hmem v hv with hnil | ⟨d, hd, hvalue⟩
    · cases hnil
    · exact Value.storable_plain (hmade.consts.2 d hd) hlength hvalue
  · rw [plain, List.length_map, hcount]
    exact hmade.consts.1
  · rw [defect?_plain]
    exact hdefect

/-- Saving drops those signs, so they need not be dropped before. -/
theorem load_save_of_loaded (hlength : data.length < Nat.pow 2 63) (h : load data = .ok c) :
    load c.save = .ok c.plain := by
  rw [← save_plain]
  exact load_save_plain hlength h

end Chunk

/-- A chunk that was loaded is saved, and its image can be loaded. What comes back is the chunk with
its zeros unsigned, so it is the same chunk exactly if no constant of it is the negative zero. (The
bytes of an image that fits in memory are fewer than the bound.) -/
theorem load_save_of_load {data : Bytes} {c : Chunk} (hlength : data.length < Nat.pow 2 63)
    (h : Chunk.load data = .ok c) :
    Chunk.load c.save = .ok c.plain ∧
      (Chunk.load c.save = .ok c ↔ ∀ v ∈ c.consts, v ≠ .number negativeZero) := by
  have hload : Chunk.load c.save = .ok c.plain := Chunk.load_save_of_loaded hlength h
  refine ⟨hload, ?_⟩
  rw [hload, Except.ok.injEq, Chunk.plain_eq_iff]

/-- A computation that gives a value succeeds with it. -/
theorem ok_of_toOption {ε α : Type} {x : Except ε α} {a : α} (h : x.toOption = some a) :
    x = .ok a := by
  cases x with
  | error e => cases h
  | ok b => rw [Option.some.inj h]

/-- An image at length: a version in eight bytes, code as a list, and lists and texts in parts. -/
def spelledOut : Bytes :=
  [0xBF, 0x01, 0x1B, 0, 0, 0, 0, 0, 0, 0, 1, 0x02, 0x9F, 1, 0, 0, 0xFF, 0x03, 0x9F, 1, 0x18, 2, 3,
    0xFF, 0x04, 0x81, 0xBF, 0x01, 0x03, 0x04, 0x7F, 0x61, 0x61, 0x62, 0x62, 0x63, 0xFF, 0xFF, 0x09,
    0xF6, 0xFF]

/-- It is saved in another form, and the chunk comes back. -/
theorem load_save_of_load_spelledOut :
    ∃ c, Chunk.load spelledOut = .ok c ∧ c.save ≠ spelledOut ∧ Chunk.load c.save = .ok c := by
  have hload : Chunk.load spelledOut =
      .ok { code := [1, 0, 0], lines := [1, 2, 3], consts := [.text [0x61, 0x62, 0x63]] } :=
    ok_of_toOption (by decide +kernel)
  refine ⟨_, hload, ?_, ?_⟩
  · rw [Chunk.save, Image.toBytes, Image.toItem_eq, Cbor.Item.write]
    exact fun h => absurd (congrArg List.head? h) (by decide)
  · refine (load_save_of_load (by decide) hload).2.mpr ?_
    exact List.forall_mem_singleton.mpr (by decide)

/-- The image of a chunk that divides one by the negative zero. -/
def signed : Bytes :=
  [0xA4, 0x01, 0x01, 0x02, 0x46, 1, 0, 1, 1, 14, 0, 0x03, 0x86, 1, 1, 1, 1, 1, 1, 0x04, 0x82,
    0xA2, 0x01, 0x02, 0x03, 0xF9, 0x3C, 0x00, 0xA2, 0x01, 0x02, 0x03, 0xF9, 0x80, 0x00]

/-- When it is loaded the result is the negative infinity; when it is saved and loaded again, it is
the positive one. -/
theorem sign_lost :
    ∃ c c', Chunk.load signed = .ok c ∧ Chunk.load c.save = .ok c' ∧
      (Machine.run {} c ({} : Console)).result =
        .ok (.number (Float.ofBits 0xFFF0000000000000)) ∧
      (Machine.run {} c' ({} : Console)).result =
        .ok (.number (Float.ofBits 0x7FF0000000000000)) := by
  let c : Chunk :=
    { code := [1, 0, 1, 1, 14, 0], lines := [1, 1, 1, 1, 1, 1],
      consts := [.number 1, .number negativeZero] }
  have hload : Chunk.load signed = .ok c := ok_of_toOption (by decide +kernel)
  have hreload : Chunk.load c.save = .ok c.plain :=
    Chunk.load_save_of_loaded (by decide) hload
  refine ⟨c, c.plain, hload, hreload, ?_, ?_⟩
  · exact ok_of_toOption (by decide +kernel)
  · exact ok_of_toOption (by decide +kernel)

/-! ## One image for every chunk -/

/-- What is saved for a chunk that was loaded is its normal form. It is loaded, and the chunk that
comes back is saved as the very same bytes. Any other chunk that was loaded is saved as these bytes
exactly if it is the same but for the signs of zeros. (The bytes of an image that fits in memory are
fewer than the bound.) -/
theorem save_of_load_save {data : Bytes} {c : Chunk} (hlength : data.length < Nat.pow 2 63)
    (h : Chunk.load data = .ok c) :
    (∃ c', Chunk.load c.save = .ok c' ∧ c'.save = c.save) ∧
      ∀ (data' : Bytes) (d : Chunk), data'.length < Nat.pow 2 63 → Chunk.load data' = .ok d →
        (d.save = c.save ↔ d.plain = c.plain) := by
  have hload : Chunk.load c.save = .ok c.plain := Chunk.load_save_of_loaded hlength h
  refine ⟨⟨c.plain, hload, c.save_plain⟩, ?_⟩
  intro data' d hlength' h'
  have hload' : Chunk.load d.save = .ok d.plain := Chunk.load_save_of_loaded hlength' h'
  constructor
  · intro hsave
    rw [hsave, hload] at hload'
    exact (Except.ok.inj hload').symm
  · intro hplain
    rw [← d.save_plain, hplain, c.save_plain]

/-- An image in which nothing is spelled as it is saved: maps and lists up to a break, code as a
list, the negative zero and a NaN in eight bytes, and a field too many. -/
def unsettled : Bytes :=
  [0xBF, 0x09, 0xF6, 0x01, 0x18, 1, 0x02, 0x83, 1, 1, 0, 0x03, 0x9F, 1, 1, 0x19, 0, 2, 0xFF, 0x04,
    0x9F, 0xBF, 0x01, 0x02, 0x03, 0xFB, 0x80, 0, 0, 0, 0, 0, 0, 0, 0xFF, 0xA2, 0x01, 0x02, 0x03,
    0xFB, 0x7F, 0xF8, 0, 0, 0, 0, 0, 1, 0xFF, 0xFF]

/-- It is saved as other bytes, and what is loaded from them is another chunk. That is saved as they
are. -/
theorem save_of_load_save_unsettled :
    ∃ c c', Chunk.load unsettled = .ok c ∧ c.save ≠ unsettled ∧ Chunk.load c.save = .ok c' ∧
      c' ≠ c ∧ c'.save = c.save := by
  let c : Chunk :=
    { code := [1, 1, 0], lines := [1, 1, 2],
      consts := [.number negativeZero, .number (Float.ofBits 0x7FF8000000000001)] }
  have hload : Chunk.load unsettled = .ok c := ok_of_toOption (by decide +kernel)
  obtain ⟨⟨c', hreload, hsave⟩, -⟩ := save_of_load_save (by decide) hload
  refine ⟨c, c', hload, ?_, hreload, ?_, hsave⟩
  · rw [Chunk.save, Image.toBytes, Image.toItem_eq, Cbor.Item.write]
    exact fun h => absurd (congrArg List.head? h) (by decide)
  · rw [Chunk.load_save_of_loaded (by decide) hload, Except.ok.injEq] at hreload
    rw [← hreload, Ne, Chunk.plain_eq_iff]
    intro hall
    exact hall _ List.mem_cons_self rfl

end Lox
