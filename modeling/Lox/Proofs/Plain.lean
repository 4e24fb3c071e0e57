import Lox.Toml.Document
import Mathlib.Tactic.Common

/-!
# Plain files

Most of what a document keeps track of is there for tables. A file is *plain* if each of its lines
gives one name a scalar, and no name twice; then the table of the whole file is the list of its
lines (`read?_of_plain`).

The converse needs an argument, since a key of one part may also be written by a header, or have an
array or a table for its value. `plain_of_read?` says that nothing else is possible: if all keys of
a document have one part, and each stands for a scalar in the table of the whole file, then the file
is plain. While all keys have one part, no mark outlives its line, so a name that is taken cannot be
defined again. Therefore a line either adds a scalar or leaves something else under its name
(`take?_cases`), and that stays until the end of the file (`Blocked.takeAll?`).
-/

namespace Lox.Toml

variable {name other : String} {node : Node} {t : Table}

/-! ## Tables -/

namespace Table

/-- An entry for another name is passed over. -/
theorem lookup_cons_of_ne (hne : name ≠ other) :
    List.lookup name ((other, node) :: t) = t.lookup name := by
  have hbeq : (name == other) = false := by simpa using hne
  simp only [List.lookup_cons, hbeq]

/-- A name stands for what was put under it. -/
theorem lookup_put_self (name : String) (node : Node) (t : Table) :
    (Table.put name node t).lookup name = some node := by
  fun_induction Table.put name node t with
  | case1 => exact List.lookup_cons_self
  | case2 => exact List.lookup_cons_self
  | case3 other n rest hne ih => rw [lookup_cons_of_ne (Ne.symm hne), ih]

/-- What is put under one name does not change another. -/
theorem lookup_put_of_ne (hne : other ≠ name) (node : Node) (t : Table) :
    (Table.put name node t).lookup other = t.lookup other := by
  fun_induction Table.put name node t with
  | case1 => exact lookup_cons_of_ne hne
  | case2 => rw [lookup_cons_of_ne hne, lookup_cons_of_ne hne]
  | case3 taken n rest _ ih => rw [List.lookup_cons, List.lookup_cons, ih]

/-- What is put under a free name comes last. -/
theorem put_of_lookup_eq_none (h : t.lookup name = none) (node : Node) :
    Table.put name node t = t ++ [(name, node)] := by
  fun_induction Table.put name node t with
  | case1 => rfl
  | case2 => simp at h
  | case3 taken n rest hne ih =>
    rw [lookup_cons_of_ne (Ne.symm hne)] at h
    rw [ih h]
    rfl

/-- A name is free just when it is not among the names of the table. -/
theorem lookup_eq_none_iff : t.lookup name = none ↔ name ∉ t.map Prod.fst := by
  rw [List.lookup_eq_none_iff]
  constructor
  · intro h hmem
    obtain ⟨entry, hentry, rfl⟩ := List.mem_map.mp hmem
    simpa using h entry hentry
  · intro h entry hentry
    rw [bne_iff_ne]
    rintro rfl
    exact h (List.mem_map_of_mem hentry)

end Table

/-- A value without parts. -/
def Node.isScalar : Node → Bool
  | .scalar _ => true
  | _ => false

/-- The line that gives a name a scalar. -/
def plainLine (line : String × Scalar) : Statement :=
  .assign [line.1] (.scalar line.2)

/-- The entry of a table that such a line makes. -/
def plainEntry (line : String × Scalar) : String × Node :=
  (line.1, .scalar line.2)

namespace Document

variable {d d₀ d' : Document} {path path' : Key} {v : Scalar} {b : Bool}

/-! ## The table of the whole file -/

/-- One more table leaves that of the whole file as it is. -/
@[simp] theorem root_make : d.make.root = d.root := by
  simp only [make, root, table, Array.getD_eq_getD_getElem?, Array.getElem?_push]
  split
  · rename_i h
    simp [Array.getElem?_eq_none (Nat.le_of_eq h.symm)]
  · rfl

/-- What is put into the first table is put into that of the whole file. -/
theorem root_put (h : 0 < d.tables.size) : (d.put 0 name node).root = d.root.put name node := by
  simp [put, root, table, h, Array.getElem_modify]

@[simp] theorem root_note : (d.note path).root = d.root := rfl
@[simp] theorem root_classify : (d.classify path b).root = d.root := rfl

/-- Defining a name of the table of the whole file. -/
theorem define?_nil : d.define? [] name node =
    if (d.root.lookup name).isNone then some (d.put 0 name node)
    else if d.provisional.contains [name] then
      if d.arrays.contains [name] then some ((d.settle [name]).put 0 name node)
      else some (d.settle [name])
    else none := rfl

/-- Adding a table to a list of them under a name of the whole file, or beginning such a list. -/
theorem extend?_nil (h : d.extend? [] name = some d') :
    d' = d.make.put 0 name (.tables d.next) := by
  simp only [extend?, reach?, List.foldlM_nil, Option.pure_def] at h
  split at h <;> cases h <;> rfl

/-! ## What taking in a value consists of -/

/-- An array is taken in item by item, after its name is known to lead to one. -/
theorem takeValue?_array {inArray : Bool} {items : List Raw}
    (h : d.takeValue? inArray path name (.array items) = some (node, d')) :
    node = .array ∧
      (d.classify (kindPath path name) true).takeItems? path name items = some d' := by
  rw [takeValue?] at h
  split at h
  · cases h
  · rename_i hitems
    cases h
    exact ⟨rfl, hitems⟩

/-- A table within a line is opened, and then its entries are taken in. -/
theorem takeValue?_table {inArray : Bool} {entries : List (Key × Raw)}
    (h : d.takeValue? inArray path name (.table entries) = some (node, d')) :
    ∃ d₁, d.openInline? inArray path name = some d₁ ∧ node = .table d₁.next ∧
      d₁.make.takeEntries? d₁.next (path ++ [name]) entries = some d' := by
  rw [takeValue?] at h
  split at h
  · cases h
  · rename_i d₁ hopen
    split at h
    · cases h
    · rename_i hentries
      cases h
      exact ⟨d₁, hopen, rfl, hentries⟩

/-- The first item of an array is taken in before the others. -/
theorem takeItems?_cons {raw : Raw} {items : List Raw}
    (h : d.takeItems? path name (raw :: items) = some d') :
    ∃ node d₁, d.takeValue? true path name raw = some (node, d₁) ∧
      d₁.takeItems? path name items = some d' := by
  rw [takeItems?] at h
  split at h
  · cases h
  · rename_i node d₁ hvalue
    exact ⟨node, d₁, hvalue, h⟩

/-- The first entry of a table is taken in and put into the table before the others. -/
theorem takeEntries?_cons {number : Nat} {e : Key × Raw} {entries : List (Key × Raw)}
    (h : d.takeEntries? number path (e :: entries) = some d') :
    ∃ node d₁ d₂, d.takePair? path e = some (node, d₁) ∧
      d₁.putAt? number e.1.dropLast (e.1.getLastD "") node = some d₂ ∧
      d₂.takeEntries? number path entries = some d' := by
  rw [takeEntries?] at h
  split at h
  · cases h
  · rename_i node d₁ hpair
    split at h
    · cases h
    · rename_i d₂ hput
      exact ⟨node, d₁, d₂, hpair, hput, h⟩

/-- The key of a pair as it is noted, with the path that it is written under. -/
def noted (path key : Key) : Key :=
  path ++ key.dropLast ++ [key.getLastD ""]

/-- A key and its value are taken in step by step: the way is passed, the key is noted, the value is
taken in, and the name is defined. -/
theorem takePair?_eq {key : Key} {raw : Raw}
    (h : d.takePair? path (key, raw) = some (node, d')) :
    ∃ d₁ d₂ d₃, d.passAll? path key.dropLast = some d₁ ∧
      (d₁.note (noted path key)).takeValue? false (path ++ key.dropLast) (key.getLastD "") raw =
        some (node, d₂) ∧
      d₂.define? (path ++ key.dropLast) (key.getLastD "") node = some d₃ ∧
      d' = d₃.classify (kindPath (path ++ key.dropLast) (key.getLastD "")) (node = .array) := by
  rw [takePair?] at h
  split at h
  · cases h
  · rename_i d₁ hpass
    split at h
    · cases h
    · rename_i d₂ hvalue
      split at h
      · cases h
      · rename_i d₃ hdefine
        cases h
        exact ⟨d₁, d₂, d₃, hpass, hvalue, hdefine, rfl⟩

/-! ## Keys -/

/-- Defining a name writes no key. -/
theorem keys_define? (h : d.define? path name node = some d') : d'.keys = d.keys := by
  simp only [define?] at h
  split at h
  · cases h
  · split_ifs at h <;> cases h <;> rfl

/-- Defining a name as a table writes no key. -/
theorem keys_defineTable? (h : d.defineTable? path name = some d') : d'.keys = d.keys := by
  unfold defineTable? at h
  rw [keys_define? h, make]

/-- Passing through a name writes no key. -/
theorem keys_pass? (h : d.pass? path name = some d') : d'.keys = d.keys := by
  unfold pass? at h
  rw [keys_defineTable? h, mark]

/-- Passing through the parts of a key writes no key. -/
theorem keys_passAll? {names : Key} (h : d.passAll? path names = some d') : d'.keys = d.keys := by
  fun_induction passAll? d path names with
  | case1 => cases h; rfl
  | case2 => cases h
  | case3 d path name names d₁ hpass ih => rw [ih h, keys_pass? hpass]

/-- Making the tables on the way of a header writes no key. -/
theorem keys_approach? {names : Key} (h : d.approach? path names = some d') :
    d'.keys = d.keys := by
  fun_induction approach? d path names with
  | case1 => cases h; rfl
  | case2 d path name names _ ih => exact ih h
  | case3 => cases h
  | case4 d path name names _ d₁ hpass ih => rw [ih h, keys_pass? hpass]

/-- Adding a table to a list writes no key. -/
theorem keys_extend? (h : d.extend? path name = some d') : d'.keys = d.keys := by
  unfold extend? at h
  split at h
  · cases h
  · split at h <;> cases h <;> rfl

/-- Opening a table within a line writes no key. -/
theorem keys_openInline? (h : d.openInline? b path name = some d') : d'.keys = d.keys := by
  unfold openInline? at h
  split at h
  · rw [keys_extend? h, mark]
  · exact keys_pass? h

/-- Putting a node under a key writes no key. -/
theorem keys_putAt? {number : Nat} (h : d.putAt? number path name node = some d') :
    d'.keys = d.keys := by
  fun_induction putAt? d number path name node with
  | case1 => cases h; rfl
  | case2 d number first path name node _ ih => exact ih h
  | case3 d number first path name node n _ ih => exact ih h
  | case4 => cases h

mutual

/-- Taking in a value loses no key. -/
theorem keys_takeValue? {d d' : Document} {inArray : Bool} {path : Key} {name : String}
    {node : Node} : (raw : Raw) → d.takeValue? inArray path name raw = some (node, d') →
      d.keys ⊆ d'.keys
  | .scalar s, h => by
    cases h
    exact List.Subset.refl _
  | .array items, h => by
    have hsub := keys_takeItems? items (takeValue?_array h).2
    rwa [classify] at hsub
  | .table entries, h => by
    obtain ⟨d₁, hopen, -, hentries⟩ := takeValue?_table h
    have hsub := keys_takeEntries? entries hentries
    rwa [make, keys_openInline? hopen] at hsub

/-- Taking in the items of an array loses no key. -/
theorem keys_takeItems? {d d' : Document} {path : Key} {name : String} :
    (items : List Raw) → d.takeItems? path name items = some d' → d.keys ⊆ d'.keys
  | [], h => by
    cases h
    exact List.Subset.refl _
  | raw :: items, h => by
    obtain ⟨node, d₁, hvalue, hitems⟩ := takeItems?_cons h
    exact List.Subset.trans (keys_takeValue? raw hvalue) (keys_takeItems? items hitems)

/-- Taking in the entries of a table loses no key. -/
theorem keys_takeEntries? {d d' : Document} {number : Nat} {path : Key} :
    (entries : List (Key × Raw)) → d.takeEntries? number path entries = some d' →
      d.keys ⊆ d'.keys
  | [], h => by
    cases h
    exact List.Subset.refl _
  | e :: entries, h => by
    obtain ⟨node, d₁, d₂, hpair, hput, hentries⟩ := takeEntries?_cons h
    have hsub := keys_takeEntries? entries hentries
    rw [keys_putAt? hput] at hsub
    exact List.Subset.trans (List.subset_of_cons_subset (keys_takePair? e hpair)) hsub

/-- Taking in a key and its value writes that key and loses none. -/
theorem keys_takePair? {d d' : Document} {path : Key} {node : Node} :
    (pair : Key × Raw) → d.takePair? path pair = some (node, d') →
      noted path pair.1 :: d.keys ⊆ d'.keys
  | (key, raw), h => by
    obtain ⟨d₁, d₂, d₃, hpass, hvalue, hdefine, rfl⟩ := takePair?_eq h
    have hsub := keys_takeValue? raw hvalue
    rwa [note, keys_passAll? hpass, ← keys_define? hdefine] at hsub

end

/-- A header writes its key. -/
theorem keys_open? {list : Bool} {key : Key} (h : d.open? list key = some d') :
    d'.keys = key :: d.keys := by
  simp only [open?] at h
  split at h
  · cases h
  · rename_i d₁ hway
    obtain ⟨d₂, hdefine, rfl⟩ := Option.map_eq_some_iff.mp h
    have hkeys : d₂.keys = d₁.keys := by
      split at hdefine
      · exact keys_extend? hdefine
      · exact keys_defineTable? hdefine
    rw [note, classify, hkeys, keys_approach? hway]

/-- All keys of the document have one part, and that is not the empty name. -/
def Flat (d : Document) : Prop :=
  ∀ key ∈ d.keys, ∃ name, name ≠ "" ∧ key = [name]

/-- A document is flat if one with more keys is. -/
theorem Flat.mono (h : d'.Flat) (hsub : d.keys ⊆ d'.keys) : d.Flat :=
  fun key hkey => h key (hsub hkey)

/-! ## Values under a name of the whole file -/

/-- Putting a node under a name makes no table. -/
theorem size_put {number : Nat} : (d.put number name node).tables.size = d.tables.size := by
  simp [put]

/-- A name of the whole file stands for what was put under it. -/
theorem lookup_root_put_self (h : 0 < d.tables.size) :
    (d.put 0 name node).root.lookup name = some node := by
  rw [root_put h, Table.lookup_put_self]

/-- What is put under one name of the whole file does not change another. -/
theorem lookup_root_put_of_ne (h : 0 < d.tables.size) (hne : other ≠ name) :
    (d.put 0 name node).root.lookup other = d.root.lookup other := by
  rw [root_put h, Table.lookup_put_of_ne hne]

/-- A name of the whole file stands for something else than a scalar. -/
def Blocked (d : Document) (name : String) : Prop :=
  ∃ node, node.isScalar = false ∧ d.root.lookup name = some node

/-- From `d₀` on, only one name of the whole file was dealt with, and no other is marked. -/
structure Confined (name : String) (d₀ d : Document) : Prop where
  size : 0 < d.tables.size
  others : ∀ other, other ≠ name → d.root.lookup other = d₀.root.lookup other
  marks : ∀ path ∈ d.provisional, path = [name]

namespace Confined

/-- Noting whether a path leads to an array deals with no name. -/
theorem classify (h : Confined name d₀ d) (path : Key) (b : Bool) :
    Confined name d₀ (d.classify path b) :=
  ⟨h.size, h.others, h.marks⟩

/-- One more table deals with no name. -/
theorem make (h : Confined name d₀ d) : Confined name d₀ d.make where
  size := by simp [Document.make]
  others other hne := by rw [root_make, h.others other hne]
  marks := h.marks

/-- The name itself may be marked. -/
theorem mark (h : Confined name d₀ d) : Confined name d₀ (d.mark [name]) where
  size := h.size
  others := h.others
  marks path hpath := by
    obtain rfl | hpath := List.mem_cons.mp hpath
    · rfl
    · exact h.marks path hpath

/-- All marks are those of the name, so they are taken away together. -/
theorem provisional_settle (h : Confined name d₀ d) : (d.settle [name]).provisional = [] :=
  List.filter_eq_nil_iff.mpr fun path hpath => by simp [h.marks path hpath]

/-- The mark of the name may be taken away. -/
theorem settle (h : Confined name d₀ d) : Confined name d₀ (d.settle [name]) where
  size := h.size
  others := h.others
  marks := by simp [h.provisional_settle]

/-- A node may be put under the name itself. -/
theorem put (h : Confined name d₀ d) (node : Node) : Confined name d₀ (d.put 0 name node) where
  size := by
    rw [size_put]
    exact h.size
  others other hne := by rw [lookup_root_put_of_ne h.size hne, h.others other hne]
  marks := h.marks

/-- A name is blocked by a node that is no scalar. -/
theorem blocked_put (h : Confined name d₀ d) (hnode : node.isScalar = false) :
    (d.put 0 name node).Blocked name :=
  ⟨node, hnode, lookup_root_put_self h.size⟩

end Confined

/-- While the value of a name is taken in, the name is marked only if it is blocked. -/
structure Underway (name : String) (d₀ d : Document) : Prop extends Confined name d₀ d where
  blocked : d.provisional = [] ∨ d.Blocked name

/-- The document between two lines of a flat file: no mark is left. -/
structure Settled (d : Document) : Prop where
  size : 0 < d.tables.size
  provisional : d.provisional = []

/-- A line of a flat file has blocked a name. -/
structure Blocks (name : String) (d₀ d : Document) : Prop extends Confined name d₀ d where
  provisional : d.provisional = []
  blocked : d.Blocked name

/-- Between two lines any name may come next. -/
theorem Settled.underway (h : d.Settled) (name : String) : Underway name d d where
  size := h.size
  others _ _ := rfl
  marks := by simp [h.provisional]
  blocked := .inl h.provisional

/-- A line that blocks a name leaves no mark. -/
theorem Blocks.settled (h : Blocks name d₀ d) : d.Settled :=
  ⟨h.size, h.provisional⟩

namespace Underway

/-- One more table does not change whether the name is blocked. -/
theorem make (h : Underway name d₀ d) : Underway name d₀ d.make where
  toConfined := h.toConfined.make
  blocked := by
    unfold Blocked
    rw [root_make]
    exact h.blocked

/-- The name can be defined as something else than a scalar if it is free, or if it is marked; and
then it is blocked already. -/
theorem define? (h : Underway name d₀ d) (hnode : node.isScalar = false)
    (hdefine : d.define? [] name node = some d') : Blocks name d₀ d' := by
  rw [define?_nil] at hdefine
  split_ifs at hdefine with hfree hmarked harray
  · cases hdefine
    -- a free name is not blocked, so there is no mark to be taken away
    have hunmarked : d.provisional = [] := by
      refine h.blocked.resolve_right ?_
      rintro ⟨node, -, hnode⟩
      simp [hnode] at hfree
    exact ⟨h.put node, hunmarked, h.blocked_put hnode⟩
  · cases hdefine
    exact ⟨h.settle.put node, h.provisional_settle, h.settle.blocked_put hnode⟩
  · cases hdefine
    refine ⟨h.settle, h.provisional_settle, h.blocked.resolve_left ?_⟩
    intro hunmarked
    simp [hunmarked] at hmarked

/-- The first table of a list blocks the name, and so does each one after it. -/
theorem extend? (h : Underway name d₀ d) (hextend : (d.mark [name]).extend? [] name = some d') :
    Underway name d₀ d' := by
  rw [extend?_nil hextend]
  exact ⟨h.mark.make.put _, .inr (h.mark.make.blocked_put rfl)⟩

/-- Passing through the name blocks it if it was free, and else takes its mark away. -/
theorem pass? (h : Underway name d₀ d) (hpass : d.pass? [] name = some d') :
    Underway name d₀ d' := by
  rw [Document.pass?, List.nil_append, defineTable?, define?_nil] at hpass
  have hmade := h.mark.make
  -- a name that was taken loses the mark again, whether or not it is blocked
  split_ifs at hpass
  · cases hpass
    exact ⟨hmade.put _, .inr (hmade.blocked_put rfl)⟩
  · cases hpass
    exact ⟨hmade.settle.put _, .inl hmade.provisional_settle⟩
  · cases hpass
    exact ⟨hmade.settle, .inl hmade.provisional_settle⟩

/-- Opening a table within a line blocks the name, or leaves it without a mark. -/
theorem openInline? {inArray : Bool} (h : Underway name d₀ d)
    (hopen : d.openInline? inArray [] name = some d') : Underway name d₀ d' := by
  unfold Document.openInline? at hopen
  split at hopen
  · exact h.extend? hopen
  · exact h.pass? hopen

end Underway

/-- A table within a line has no entries in a flat file: their keys would have two parts. -/
theorem Flat.entries_eq_nil {number : Nat} {entries : List (Key × Raw)} (hflat : d'.Flat)
    (h : d.takeEntries? number [name] entries = some d') : entries = [] := by
  cases entries with
  | nil => rfl
  | cons e entries =>
    obtain ⟨node, d₁, d₂, hpair, hput, hentries⟩ := takeEntries?_cons h
    have hsub := keys_takeEntries? entries hentries
    rw [keys_putAt? hput] at hsub
    obtain ⟨first, -, hkey⟩ := hflat _ (hsub (keys_takePair? e hpair List.mem_cons_self))
    simp [noted] at hkey

mutual

/-- While a value is taken in, the name is marked only if it is blocked. -/
theorem Underway.takeValue? {d d' : Document} {inArray : Bool} {node : Node} :
    (raw : Raw) → Underway name d₀ d → d.takeValue? inArray [] name raw = some (node, d') →
      d'.Flat → Underway name d₀ d'
  | .scalar s, h, htake, _ => by
    cases htake
    exact h
  | .array items, h, htake, hflat =>
    Underway.takeItems? items ⟨h.classify _ _, h.blocked⟩ (takeValue?_array htake).2 hflat
  | .table entries, h, htake, hflat => by
    obtain ⟨d₁, hopen, -, hentries⟩ := takeValue?_table htake
    rw [hflat.entries_eq_nil hentries, takeEntries?] at hentries
    cases hentries
    exact (h.openInline? hopen).make

/-- While the items of an array are taken in, the name is marked only if it is blocked. -/
theorem Underway.takeItems? {d d' : Document} : (items : List Raw) → Underway name d₀ d →
    d.takeItems? [] name items = some d' → d'.Flat → Underway name d₀ d'
  | [], h, htake, _ => by
    cases htake
    exact h
  | raw :: items, h, htake, hflat => by
    obtain ⟨node, d₁, hvalue, hitems⟩ := takeItems?_cons htake
    have hflat₁ := hflat.mono (keys_takeItems? items hitems)
    exact Underway.takeItems? items (Underway.takeValue? raw h hvalue hflat₁) hitems hflat

end

/-! ## Lines of a flat file -/

/-- Noting whether a path leads to an array does not free the name. -/
theorem Blocks.classify (h : Blocks name d₀ d) (path : Key) (b : Bool) :
    Blocks name d₀ (d.classify path b) :=
  ⟨h.toConfined.classify path b, h.provisional, h.blocked⟩

/-- Noting a key does not free the name. -/
theorem Blocks.note (h : Blocks name d₀ d) (key : Key) : Blocks name d₀ (d.note key) :=
  ⟨⟨h.size, h.others, h.marks⟩, h.provisional, h.blocked⟩

/-- A header with one part blocks its name. -/
theorem Settled.open? {list : Bool} (hd : d.Settled) (h : d.open? list [name] = some d') :
    Blocks name d d' := by
  simp only [Document.open?, List.dropLast_singleton, approach?, List.getLastD_cons,
    List.getLastD_nil] at h
  obtain ⟨d₁, hdefine, rfl⟩ := Option.map_eq_some_iff.mp h
  suffices hblocks : Blocks name d d₁ from (hblocks.classify _ _).note _
  have hmade : Underway name d d.make := (hd.underway name).make
  split at hdefine
  · rw [extend?_nil hdefine]
    exact ⟨hmade.put _, hd.provisional, hmade.blocked_put rfl⟩
  · exact hmade.define? rfl hdefine

/-- The document with a scalar under one more name. -/
def add (d : Document) (name : String) (v : Scalar) : Document :=
  ((d.note [name]).put 0 name (.scalar v)).classify (kindPath [] name) false

/-- A scalar under one more name leaves no mark. -/
theorem Settled.add (hd : d.Settled) : (d.add name v).Settled where
  size := by
    have hsize : (d.add name v).tables.size = d.tables.size := size_put
    rw [hsize]
    exact hd.size
  provisional := hd.provisional

/-- A scalar under a free name comes last. -/
theorem root_add (hd : d.Settled) (hfree : d.root.lookup name = none) :
    (d.add name v).root = d.root ++ [(name, .scalar v)] := by
  have hsize : 0 < (d.note [name]).tables.size := hd.size
  rw [add, root_classify, root_put hsize, root_note, Table.put_of_lookup_eq_none hfree]

/-- A scalar under a free name leaves all names different. -/
theorem nodup_add (hd : d.Settled) (hfree : d.root.lookup name = none)
    (hnodup : (d.root.map Prod.fst).Nodup) : ((d.add name v).root.map Prod.fst).Nodup := by
  rw [root_add hd hfree, List.map_append, List.nodup_append]
  refine ⟨hnodup, by simp, ?_⟩
  rintro taken htaken added hadded rfl
  rw [List.mem_singleton.mp hadded] at htaken
  exact Table.lookup_eq_none_iff.mp hfree htaken

/-- A line that gives a name a scalar is taken in just when the name is free. -/
theorem take?_plainLine (hd : d.Settled) : d.take? [] (plainLine (name, v)) =
    if (d.root.lookup name).isNone then some (d.add name v, []) else none := by
  have hunmarked : (d.note [name]).provisional = [] := hd.provisional
  simp only [take?, plainLine, takePair?, List.dropLast_singleton, passAll?, List.nil_append,
    List.getLastD_cons, List.getLastD_nil, takeValue?, define?_nil, root_note, hunmarked,
    List.contains_nil, Bool.false_eq_true, if_false]
  split_ifs
  · rfl
  · rfl

/-- A value that is not written as a scalar is none. -/
theorem isScalar_eq_false_of_takeValue? {raw : Raw} {inArray : Bool}
    (hraw : ∀ s, raw ≠ .scalar s)
    (h : d.takeValue? inArray path name raw = some (node, d')) : node.isScalar = false := by
  cases raw with
  | scalar s => exact absurd rfl (hraw s)
  | array items =>
    rw [(takeValue?_array h).1]
    rfl
  | table entries =>
    obtain ⟨d₁, -, rfl, -⟩ := takeValue?_table h
    rfl

/-- Any other line with one name blocks it. -/
theorem Settled.takePair? {raw : Raw} (hd : d.Settled) (hraw : ∀ s, raw ≠ .scalar s)
    (h : d.takePair? [] ([name], raw) = some (node, d')) (hflat : d'.Flat) :
    Blocks name d d' := by
  obtain ⟨d₁, d₂, d₃, hpass, hvalue, hdefine, rfl⟩ := takePair?_eq h
  cases hpass
  have hflat₂ : d₂.Flat := hflat.mono (by
    rw [Document.classify, keys_define? hdefine]
    exact List.Subset.refl _)
  have hstart : Underway name d (d.note [name]) :=
    ⟨⟨hd.size, fun _ _ => rfl, (hd.underway name).marks⟩, .inl hd.provisional⟩
  have hnode := isScalar_eq_false_of_takeValue? hraw hvalue
  exact ((hstart.takeValue? raw hvalue hflat₂).define? hnode hdefine).classify _ _

/-- Taking in a header is opening its table. -/
theorem take?_header {list : Bool} {key : Key}
    (h : d.take? path (.header list key) = some (d', path')) : d.open? list key = some d' := by
  simp only [take?, Option.map_eq_some_iff, Prod.mk.injEq] at h
  obtain ⟨d₁, hopen, rfl, -⟩ := h
  exact hopen

/-- Taking in any other line is taking in its key and its value. -/
theorem take?_assign {key : Key} {raw : Raw}
    (h : d.take? path (.assign key raw) = some (d', path')) :
    ∃ node, d.takePair? path (key, raw) = some (node, d') := by
  simp only [take?, Option.map_eq_some_iff, Prod.mk.injEq] at h
  obtain ⟨⟨node, d₁⟩, hpair, rfl, -⟩ := h
  exact ⟨node, hpair⟩

/-- A key of one part is written at the top of the file, by a key of one part. -/
theorem eq_singleton_of_noted {key : Key} (hname : name ≠ "") (h : noted path key = [name]) :
    path = [] ∧ key = [name] := by
  rw [noted, List.append_eq_singleton_iff] at h
  obtain ⟨hfront, hlast⟩ | ⟨-, hlast⟩ := h
  · obtain ⟨rfl, hdrop⟩ := List.append_eq_nil_iff.mp hfront
    refine ⟨rfl, ?_⟩
    rcases key with _ | ⟨only, _ | ⟨second, rest⟩⟩
    · exact absurd (List.singleton_inj.mp hlast).symm hname
    · exact hlast
    · simp at hdrop
  · cases hlast

/-- A line of a flat file adds a scalar under a name that was free, or it blocks a name. -/
theorem take?_cases {line : Statement} (hd : d.Settled)
    (h : d.take? path line = some (d', path')) (hflat : d'.Flat) :
    (∃ name v, line = plainLine (name, v) ∧ path = [] ∧ path' = [] ∧
      d.root.lookup name = none ∧ d' = d.add name v) ∨
    ∃ name, [name] ∈ d'.keys ∧ Blocks name d d' := by
  cases line with
  | header list key =>
    have hopen := take?_header h
    have hmem : key ∈ d'.keys := by simp [keys_open? hopen]
    obtain ⟨name, -, rfl⟩ := hflat key hmem
    exact .inr ⟨name, hmem, hd.open? hopen⟩
  | assign key raw =>
    obtain ⟨node, hpair⟩ := take?_assign h
    have hmem := keys_takePair? (key, raw) hpair List.mem_cons_self
    obtain ⟨name, hname, hkey⟩ := hflat _ hmem
    obtain ⟨rfl, rfl⟩ := eq_singleton_of_noted hname hkey
    cases raw with
    | scalar v =>
      change d.take? [] (plainLine (name, v)) = _ at h
      rw [take?_plainLine hd] at h
      split_ifs at h with hfree
      cases h
      exact .inl ⟨name, v, rfl, rfl, rfl, by simpa using hfree, rfl⟩
    | array items => exact .inr ⟨name, hmem, hd.takePair? (by simp) hpair hflat⟩
    | table entries => exact .inr ⟨name, hmem, hd.takePair? (by simp) hpair hflat⟩

/-- Taking in a line loses no key. -/
theorem keys_take? {line : Statement} (h : d.take? path line = some (d', path')) :
    d.keys ⊆ d'.keys := by
  cases line with
  | header list key =>
    rw [keys_open? (take?_header h)]
    exact List.subset_cons_self key d.keys
  | assign key raw =>
    obtain ⟨node, hpair⟩ := take?_assign h
    exact List.subset_of_cons_subset (keys_takePair? (key, raw) hpair)

/-- Taking in lines loses no key. -/
theorem keys_takeAll? {lines : List Statement} (h : d.takeAll? path lines = some d') :
    d.keys ⊆ d'.keys := by
  fun_induction takeAll? d path lines with
  | case1 =>
    cases h
    exact List.Subset.refl _
  | case2 => cases h
  | case3 d path line rest d₁ path₁ htake ih => exact List.Subset.trans (keys_take? htake) (ih h)

/-- A name that is blocked stays so: it is not free for a scalar, and other names do not touch
it. -/
theorem Blocked.takeAll? {lines : List Statement} (hd : d.Settled) (hblocked : d.Blocked name)
    (h : d.takeAll? path lines = some d') (hflat : d'.Flat) : d'.Blocked name := by
  fun_induction Document.takeAll? d path lines with
  | case1 =>
    cases h
    exact hblocked
  | case2 => cases h
  | case3 d path line rest d₁ path₁ htake ih =>
    obtain ⟨other, v, -, -, -, hfree, rfl⟩ | ⟨other, -, hblocks⟩ :=
      take?_cases hd htake (hflat.mono (keys_takeAll? h))
    · refine ih hd.add ?_ h
      obtain ⟨node, hnode, hlookup⟩ := hblocked
      refine ⟨node, hnode, ?_⟩
      rw [root_add hd hfree, List.lookup_append, hlookup, Option.some_or]
    · refine ih hblocks.settled ?_ h
      by_cases hname : name = other
      · rw [hname]
        exact hblocks.blocked
      · obtain ⟨node, hnode, hlookup⟩ := hblocked
        exact ⟨node, hnode, by rw [hblocks.others name hname, hlookup]⟩

/-! ## Plain files -/

/-- The lines of a flat file give free names scalars, one after another, or a name is blocked in the
end. -/
theorem takeAll?_cases {lines : List Statement} (hd : d.Settled)
    (hnodup : (d.root.map Prod.fst).Nodup) (h : d.takeAll? [] lines = some d') (hflat : d'.Flat) :
    (∃ plain : List (String × Scalar), lines = plain.map plainLine ∧
      d'.root = d.root ++ plain.map plainEntry ∧ (d'.root.map Prod.fst).Nodup) ∨
    ∃ name, [name] ∈ d'.keys ∧ d'.Blocked name := by
  induction lines generalizing d with
  | nil =>
    cases h
    exact .inl ⟨[], rfl, by simp, hnodup⟩
  | cons line rest ih =>
    rw [takeAll?] at h
    split at h
    · cases h
    · rename_i d₁ path₁ htake
      have hflat₁ := hflat.mono (keys_takeAll? h)
      obtain ⟨name, v, rfl, -, rfl, hfree, rfl⟩ | ⟨name, hmem, hblocks⟩ :=
        take?_cases hd htake hflat₁
      · obtain ⟨plain, rfl, hroot, hnodup'⟩ | hblocked :=
          ih hd.add (nodup_add hd hfree hnodup) h
        · refine .inl ⟨(name, v) :: plain, rfl, ?_, hnodup'⟩
          rw [hroot, root_add hd hfree, List.append_assoc]
          rfl
        · exact .inr hblocked
      · exact .inr ⟨name, keys_takeAll? h hmem, hblocks.blocked.takeAll? hblocks.settled h hflat⟩

/-- The empty document has no marks. -/
theorem settled_empty : Settled {} :=
  ⟨by decide, rfl⟩

/-- A flat file in which every key stands for a scalar is plain. -/
theorem plain_of_read? {file : Bytes} (h : read? file = some d) (hflat : d.Flat)
    (hscalar : ∀ name node, [name] ∈ d.keys → d.root.lookup name = some node →
      node.isScalar = true) :
    ∃ plain : List (String × Scalar), statements? file = some (plain.map plainLine) ∧
      (plain.map Prod.fst).Nodup ∧ d.root = plain.map plainEntry := by
  obtain ⟨lines, hlines, htake⟩ := Option.bind_eq_some_iff.mp h
  obtain ⟨plain, rfl, hroot, hnodup⟩ | ⟨name, hmem, node, hnode, hlookup⟩ :=
    takeAll?_cases settled_empty (by decide) htake hflat
  · have hroot : d.root = plain.map plainEntry := hroot
    rw [hroot, List.map_map] at hnodup
    exact ⟨plain, hlines, hnodup, hroot⟩
  · rw [hscalar name node hmem hlookup] at hnode
    cases hnode

/-- Lines that give scalars to different names, all of them free, are taken in one after another. -/
theorem takeAll?_plainLines (hd : d.Settled) (plain : List (String × Scalar))
    (hnodup : (d.root.map Prod.fst ++ plain.map Prod.fst).Nodup) :
    ∃ d', d.takeAll? [] (plain.map plainLine) = some d' ∧
      d'.root = d.root ++ plain.map plainEntry ∧
      d'.keys = (plain.map fun line => [line.1]).reverse ++ d.keys := by
  induction plain generalizing d with
  | nil => exact ⟨d, rfl, by simp, by simp⟩
  | cons line plain ih =>
    obtain ⟨name, v⟩ := line
    have hfree : d.root.lookup name = none := by
      rw [Table.lookup_eq_none_iff]
      intro hmem
      exact (List.nodup_append.mp hnodup).2.2 name hmem name List.mem_cons_self rfl
    have hroot : (d.add name v).root = d.root ++ [(name, .scalar v)] := root_add hd hfree
    have hnodup' : ((d.add name v).root.map Prod.fst ++ plain.map Prod.fst).Nodup := by
      rw [hroot]
      simpa using hnodup
    obtain ⟨d', htake, hroot', hkeys⟩ := ih hd.add hnodup'
    refine ⟨d', ?_, ?_, ?_⟩
    · rw [List.map_cons, takeAll?, take?_plainLine hd, hfree]
      exact htake
    · rw [hroot', hroot, List.append_assoc]
      rfl
    · rw [hkeys, List.map_cons, List.reverse_cons, List.append_assoc]
      rfl

/-- A plain file is read as the list of its lines. -/
theorem read?_of_plain {file : Bytes} {plain : List (String × Scalar)}
    (h : statements? file = some (plain.map plainLine)) (hnodup : (plain.map Prod.fst).Nodup) :
    ∃ d, read? file = some d ∧ d.root = plain.map plainEntry ∧
      d.keys = (plain.map fun line => [line.1]).reverse := by
  obtain ⟨d, htake, hroot, hkeys⟩ := takeAll?_plainLines settled_empty plain hnodup
  refine ⟨d, Option.bind_eq_some_iff.mpr ⟨_, h, htake⟩, hroot, ?_⟩
  rw [hkeys]
  exact List.append_nil _

end Document

end Lox.Toml
