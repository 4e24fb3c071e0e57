import Lox.Directory

/-!
# Reading and writing files

A directory is seen through `kind?`, which says what stands at each path. There is room for a file
at a path if no file stands on the way to it, and the path has a file already or it is free and the
folder that it lies in is there: this is what writing asks for (`write_eq_ok_iff`). Writing changes
what stands at the path of the file and nothing else (`Room.kind?_put_of_ne`). So the file is read
as it was written (`read_write`), and what can be read at another path can be read there as before
(`read_write_of_apart`).
-/

namespace Lox.Directory

variable {d d' : Directory} {path other : String} {parts place : List String} {content b : Bytes}

/-! ## What stands at a path -/

/-- Taking out the entries for one path does not change what is found at another. -/
theorem lookup_filter_of_ne {es : List (List String × Entry)} (hne : place ≠ parts) :
    (es.filter (·.1 ≠ parts)).lookup place = es.lookup place := by
  induction es with
  | nil => rfl
  | cons x xs ih =>
    obtain ⟨p, e⟩ := x
    by_cases hp : p = parts
    · have hbeq : (place == p) = false := by simp [hp, hne]
      simp only [List.filter_cons, hp, ne_eq, not_true_eq_false, decide_false, Bool.false_eq_true,
        if_false, ih]
      rw [List.lookup_cons, ← hp, hbeq]
    · simp only [List.filter_cons, ne_eq, hp, not_false_eq_true, decide_true, if_true,
        List.lookup_cons, ih]

/-- What is found at a path is among the entries. -/
theorem mem_of_lookup {e : Entry} (h : d.entries.lookup parts = some e) :
    (parts, e) ∈ d.entries := by
  obtain ⟨before, after, heq, -⟩ := List.lookup_eq_some_iff.mp h
  rw [heq]
  simp

/-- The directory itself is a folder. -/
theorem kind?_nil : d.kind? [] = some .folder := rfl

/-- Something stands at a path, or below it. -/
def Occupied (d : Directory) (parts : List String) : Prop :=
  ∃ e ∈ d.entries, parts <+: e.1

/-- The test for an entry at or below a path says whether the path is occupied. -/
theorem any_isPrefixOf_iff :
    (d.entries.any fun e => parts.isPrefixOf e.1) = true ↔ d.Occupied parts := by
  simp only [Occupied, List.any_eq_true, List.isPrefixOf_iff_prefix]

/-- The folders on the way to an occupied path are occupied. -/
theorem Occupied.mono (h : d.Occupied parts) (hway : place <+: parts) : d.Occupied place := by
  obtain ⟨e, he, hparts⟩ := h
  exact ⟨e, he, hway.trans hparts⟩

/-- A path with an entry is occupied. -/
theorem occupied_of_lookup {e : Entry} (h : d.entries.lookup parts = some e) :
    d.Occupied parts :=
  ⟨(parts, e), mem_of_lookup h, List.prefix_rfl⟩

/-- A file is there only by an entry of its own. -/
theorem lookup_of_kind?_file (h : d.kind? parts = some (.file b)) :
    d.entries.lookup parts = some (.file b) := by
  unfold kind? at h
  split at h
  · cases h
  · split at h
    · rename_i e he
      rw [he, h]
    · split at h <;> cases h

/-- Where something stands, there is an entry for it or below it, unless it is the directory
itself. -/
theorem occupied_of_kind? {e : Entry} (h : d.kind? parts = some e) (hne : parts ≠ []) :
    d.Occupied parts := by
  unfold kind? at h
  rw [if_neg (by simp [hne])] at h
  split at h
  · rename_i e' he
    exact occupied_of_lookup he
  · split at h
    · rename_i hany
      exact any_isPrefixOf_iff.mp hany
    · cases h

/-- Something stands at an occupied path. -/
theorem kind?_ne_none_of_occupied (h : d.Occupied parts) : d.kind? parts ≠ none := by
  unfold kind?
  split
  · simp
  · split
    · simp
    · rw [if_pos (any_isPrefixOf_iff.mpr h)]
      simp

/-- A path leads through something that is no folder just when there is an entry for that on the
way. -/
theorem throughFile_iff : d.throughFile parts = true ↔
    ∃ e ∈ d.entries, e.2 ≠ .folder ∧ e.1 ≠ parts ∧ e.1 <+: parts := by
  simp [throughFile, ← List.isPrefixOf_iff_prefix, and_assoc]

/-! ## Room for a file -/

/-- There is room for a file at a path. -/
structure Room (d : Directory) (parts : List String) : Prop where
  /-- No file stands on the way. -/
  clear : d.throughFile parts = false
  /-- A file stands there already, or nothing does and the folder around it is there. -/
  free : (∃ b, d.kind? parts = some (.file b)) ∨
    d.kind? parts = none ∧ d.kind? parts.dropLast = some .folder

/-- Writing asks for a path that does not say that it is a folder's, and for room there. -/
theorem write_eq_ok_iff : d.write path content = .ok d' ↔
    (path.isEmpty = false ∧ asksFolder path = false ∧ d.Room (components path)) ∧
      d' = d.put (components path) content := by
  simp only [write]
  constructor
  · intro h
    split at h
    · cases h
    split at h
    · cases h
    rename_i hempty hclear
    split at h
    · cases h
    · cases h
    · rename_i b hkind
      split at h
      · cases h
      · rename_i hplain
        cases h
        exact ⟨⟨by simpa using hempty, by simpa using hplain, by simpa using hclear,
          .inl ⟨b, hkind⟩⟩, rfl⟩
    · rename_i hkind hparent
      split at h
      · cases h
      · rename_i hplain
        cases h
        exact ⟨⟨by simpa using hempty, by simpa using hplain, by simpa using hclear,
          .inr ⟨hkind, hparent⟩⟩, rfl⟩
    · cases h
  · rintro ⟨⟨hempty, hplain, hclear, hfree⟩, rfl⟩
    obtain ⟨b, hkind⟩ | ⟨hkind, hparent⟩ := hfree
    · simp [hempty, hclear, hkind, hplain]
    · simp [hempty, hclear, hkind, hparent, hplain]

namespace Room

/-- There is no room for a file where a folder is. -/
theorem kind?_ne_folder (h : d.Room parts) : d.kind? parts ≠ some .folder := by
  intro hfolder
  obtain ⟨b, hkind⟩ | ⟨hkind, -⟩ := h.free
  · rw [hkind] at hfolder
    cases hfolder
  · rw [hkind] at hfolder
    cases hfolder

/-- There is no room for a file in the place of the directory itself. -/
theorem ne_nil (h : d.Room parts) : parts ≠ [] := by
  rintro rfl
  exact h.kind?_ne_folder kind?_nil

/-- The folders around a place where there is room are there. -/
theorem occupied_above (h : d.Room parts) (hway : place <+: parts) (hne : place ≠ parts)
    (hnil : place ≠ []) : d.Occupied place := by
  obtain ⟨b, hkind⟩ | ⟨-, hparent⟩ := h.free
  · exact (occupied_of_kind? hkind h.ne_nil).mono hway
  · have hconcat := List.dropLast_concat_getLast h.ne_nil
    rw [← hconcat] at hway hne
    have haround : place <+: parts.dropLast :=
      (List.prefix_concat_iff.mp hway).resolve_left hne
    refine (occupied_of_kind? hparent ?_).mono haround
    intro heq
    rw [heq] at haround
    exact hnil (List.prefix_nil.mp haround)

/-- A file that can be read does not lie below a place where there is room. -/
theorem apart (h : d.Room parts) (hfile : d.kind? place = some (.file b))
    (hclear : d.throughFile place = false) (hne : place ≠ parts) : ¬ parts <+: place := by
  intro hway
  obtain ⟨b', hkind⟩ | ⟨hkind, -⟩ := h.free
  · have hmem := mem_of_lookup (lookup_of_kind?_file hkind)
    exact Bool.eq_false_iff.mp hclear
      (throughFile_iff.mpr ⟨_, hmem, by simp, hne.symm, hway⟩)
  · have hbelow := occupied_of_lookup (lookup_of_kind?_file hfile)
    exact kind?_ne_none_of_occupied (hbelow.mono hway) hkind

end Room

/-! ## Putting a file in its place -/

/-- A file stands where it was put. -/
theorem kind?_put (hne : parts ≠ []) :
    (d.put parts content).kind? parts = some (.file content) := by
  simp [kind?, put, hne]

/-- A file that is put where there is room changes nothing elsewhere. -/
theorem Room.kind?_put_of_ne (h : d.Room parts) (hne : place ≠ parts) :
    (d.put parts content).kind? place = d.kind? place := by
  by_cases hnil : place = []
  · rw [hnil]
    rfl
  have hlookup : (d.put parts content).entries.lookup place = d.entries.lookup place := by
    have hbeq : (place == parts) = false := by simp [hne]
    simp only [put, List.lookup_cons, hbeq]
    exact lookup_filter_of_ne hne
  have hoccupied : (d.put parts content).Occupied place ↔ d.Occupied place := by
    constructor
    · rintro ⟨e, he, hto⟩
      obtain rfl | he := List.mem_cons.mp he
      · exact h.occupied_above hto hne hnil
      · exact ⟨e, (List.mem_filter.mp he).1, hto⟩
    · rintro ⟨e, he, hto⟩
      by_cases hparts : e.1 = parts
      · exact ⟨_, List.mem_cons_self, hparts ▸ hto⟩
      · exact ⟨e, List.mem_cons_of_mem _ (List.mem_filter.mpr ⟨he, by simpa using hparts⟩), hto⟩
  have hany := Bool.eq_iff_iff.mpr
    (any_isPrefixOf_iff.trans (hoccupied.trans any_isPrefixOf_iff.symm))
  simp only [kind?, hlookup, hany]

/-- The files on the way to a path are not affected by a file at the path itself, or by one that is
not on the way. -/
theorem throughFile_put (h : parts = place ∨ ¬ parts <+: place) :
    (d.put parts content).throughFile place = d.throughFile place := by
  -- no entry for `parts` stands on the way, neither the new one nor one that it takes the place of
  have hout : ∀ p : List String, p = parts → p ≠ place → ¬ p <+: place := by
    rintro p rfl hne
    exact h.resolve_left hne
  rw [Bool.eq_iff_iff, throughFile_iff, throughFile_iff]
  constructor
  · rintro ⟨e, he, hfile, hne, hway⟩
    obtain rfl | he := List.mem_cons.mp he
    · exact absurd hway (hout _ rfl hne)
    · exact ⟨e, (List.mem_filter.mp he).1, hfile, hne, hway⟩
  · rintro ⟨e, he, hfile, hne, hway⟩
    have hparts : e.1 ≠ parts := fun heq => hout e.1 heq hne hway
    exact ⟨e, List.mem_cons_of_mem _ (List.mem_filter.mpr ⟨he, by simpa using hparts⟩), hfile, hne,
      hway⟩

/-! ## Reading after writing -/

/-- Reading asks for a path that does not say that it is a folder's, with nothing but folders on the
way and a file at the end. -/
theorem read_eq_ok_iff : d.read path = .ok content ↔
    path.isEmpty = false ∧ asksFolder path = false ∧ d.throughFile (components path) = false ∧
      d.kind? (components path) = some (.file content) := by
  simp only [read]
  constructor
  · intro h
    split at h
    · cases h
    split at h
    · cases h
    rename_i hempty hclear
    split at h
    · cases h
    · cases h
    · cases h
    · rename_i b hkind
      split at h
      · cases h
      · rename_i hplain
        cases h
        exact ⟨by simpa using hempty, by simpa using hplain, by simpa using hclear, hkind⟩
  · rintro ⟨hempty, hplain, hclear, hkind⟩
    simp [hempty, hclear, hkind, hplain]

/-- A file is read as it was written. -/
theorem read_write (h : d.write path content = .ok d') : d'.read path = .ok content := by
  obtain ⟨⟨hempty, hplain, hroom⟩, rfl⟩ := write_eq_ok_iff.mp h
  rw [read_eq_ok_iff, throughFile_put (.inl rfl)]
  exact ⟨hempty, hplain, hroom.clear, kind?_put hroom.ne_nil⟩

/-- Reading at a path that is not that of a file, and not below it, is not affected by writing the
file. -/
theorem read_write_of_apart (h : d.write path content = .ok d')
    (hnot : ¬ components path <+: components other) : d'.read other = d.read other := by
  obtain ⟨⟨-, -, hroom⟩, rfl⟩ := write_eq_ok_iff.mp h
  have hne : components other ≠ components path := by
    intro heq
    rw [heq] at hnot
    exact hnot List.prefix_rfl
  simp only [read, throughFile_put (.inr hnot), hroom.kind?_put_of_ne hne]

/-- Another file that can be read is not affected by writing a file. -/
theorem read_write_of_read (h : d.write path content = .ok d') (hread : d.read other = .ok b)
    (hne : components other ≠ components path) : d'.read other = .ok b := by
  obtain ⟨⟨-, -, hroom⟩, -⟩ := write_eq_ok_iff.mp h
  obtain ⟨-, -, hclear, hkind⟩ := read_eq_ok_iff.mp hread
  rw [read_write_of_apart h (hroom.apart hkind hclear hne), hread]

/-- Whether something can be written at a path does not depend on what it is. -/
theorem exists_write_of_write (h : d.write path content = .ok d') (b : Bytes) :
    ∃ d'', d.write path b = .ok d'' :=
  ⟨_, write_eq_ok_iff.mpr ⟨(write_eq_ok_iff.mp h).1, rfl⟩⟩

/-- What was written can be written over. -/
theorem exists_write_again (h : d.write path content = .ok d') (b : Bytes) :
    ∃ d'', d'.write path b = .ok d'' := by
  obtain ⟨⟨hempty, hplain, hroom⟩, rfl⟩ := write_eq_ok_iff.mp h
  refine ⟨_, write_eq_ok_iff.mpr ⟨⟨hempty, hplain, ?_, ?_⟩, rfl⟩⟩
  · rw [throughFile_put (.inl rfl)]
    exact hroom.clear
  · exact .inl ⟨content, kind?_put hroom.ne_nil⟩

end Lox.Directory
