import Lox.Cli.Flags
import Lox.Proofs.Files
import Lox.Proofs.Plain

/-!
# Layers of settings

The settings come from three layers: the flags, a file, and the defaults. For each field the first
layer that has a value decides, except that tracing decides about the verbosity. The layers are
checked twice. A file must pass the check with the defaults alone under it, so its own faults are
not mended by flags; and the outcome must pass the check again.

`Cli.Flags.effective_settings` says which settings come about, and when. Its file layer is read off
the lines of the file (`Layer.ofLines`), which are what is left of a document if the file is to be
accepted: lines that give fields values of their types, and nothing else (`ofFile_eq_ok_iff`).

A file may spell one field in several ways, which differ in the case of letters. That the last one
counts is a choice of `setAll?`, and `said?` follows it. For a file that spells each field once
there is nothing to choose: its layer is the same in any order of the lines (`Layer.ofLines_perm`).
-/

namespace Lox

/-! ## Names of levels -/

namespace Log.Level

/-- The name of a level, whatever the case of its letters. -/
def IsName (name : String) : Prop :=
  ∃ entry ∈ names, entry.1.toList = name.toList.map lower

/-- A name has a level just when it is the name of one. -/
theorem isSome_ofName? {name : String} : (ofName? name).isSome = true ↔ IsName name := by
  simp only [ofName?, Option.isSome_map, List.find?_isSome, IsName, decide_eq_true_iff]

instance {name : String} : Decidable (IsName name) :=
  decidable_of_iff _ isSome_ofName?

end Log.Level

open Log.Level (IsName)

namespace Toml.Scalar

/-- The text that a scalar is. -/
def text? : Scalar → Option String
  | .text s => some s
  | _ => none

/-- The integer that a scalar is. -/
def integer? : Scalar → Option Int
  | .integer i => some i
  | _ => none

/-- The truth value that a scalar is. -/
def boolean? : Scalar → Option Bool
  | .boolean b => some b
  | _ => none

end Toml.Scalar

namespace Settings

variable {d : Directory} {path origin name : String} {content : Bytes} {s s' : Settings}
  {f : Field} {v : Toml.Scalar} {lines : List (String × Toml.Scalar)}

/-! ## What the lines of a file say -/

/-- Whether a scalar is of the type of a field. -/
def Field.takes : Field → Toml.Scalar → Bool
  | verbosity, .text _ | prompt, .text _ | stackMax, .integer _ | strictDivision, .boolean _
  | trace, .boolean _ => true
  | _, _ => false

/-- What is said about a field. Of several spellings of its name the last counts, by the choice that
`setAll?` makes. -/
def said? {α : Type} (entries : List (String × α)) (f : Field) : Option α :=
  (entries.reverse.find? fun entry => Field.ofName? entry.1 = some f).map Prod.snd

/-- The values that one layer has for the fields. -/
structure Layer where
  verbosity : Option String := none
  prompt : Option String := none
  stackMax : Option Int := none
  strictDivision : Option Bool := none
  trace : Option Bool := none
  deriving DecidableEq, Repr

namespace Layer

/-- The values that the lines of a file give. -/
def ofLines (lines : List (String × Toml.Scalar)) : Layer where
  verbosity := (said? lines .verbosity).bind Toml.Scalar.text?
  prompt := (said? lines .prompt).bind Toml.Scalar.text?
  stackMax := (said? lines .stackMax).bind Toml.Scalar.integer?
  strictDivision := (said? lines .strictDivision).bind Toml.Scalar.boolean?
  trace := (said? lines .trace).bind Toml.Scalar.boolean?

/-- The layer on top of some settings. -/
def onto (l : Layer) (s : Settings) : Settings where
  verbosity := l.verbosity.getD s.verbosity
  prompt := l.prompt.getD s.prompt
  stackMax := l.stackMax.getD s.stackMax
  strictDivision := l.strictDivision.getD s.strictDivision
  trace := l.trace.getD s.trace
  origin := s.origin

/-- The layer on top of the defaults, as settings that come from a file. -/
def settings (l : Layer) (origin : String) : Settings :=
  { l.onto {} with origin := origin }

end Layer

/-- One entry says something about the field that it names. -/
theorem said?_singleton {α : Type} (name : String) (x : α) (f : Field) :
    said? [(name, x)] f = if Field.ofName? name = some f then some x else none := by
  simp only [said?, List.reverse_singleton, List.find?_singleton, decide_eq_true_iff]
  split <;> rfl

/-- What is said later counts, and else what is said first. -/
theorem said?_cons {α : Type} (entry : String × α) (entries : List (String × α)) (f : Field) :
    said? (entry :: entries) f = (said? entries f).or (said? [entry] f) := by
  simp only [said?, List.reverse_cons, List.reverse_nil, List.nil_append, List.find?_append,
    Option.map_or]

/-- The entries of a table say what the lines that made them say. -/
theorem said?_map_plainEntry (lines : List (String × Toml.Scalar)) (f : Field) :
    said? (lines.map Toml.plainEntry) f = (said? lines f).map Toml.Node.scalar := by
  induction lines with
  | nil => rfl
  | cons line lines ih =>
    rw [List.map_cons, said?_cons, said?_cons line, ih, Option.map_or, Toml.plainEntry,
      said?_singleton, said?_singleton line.1 line.2]
    split <;> rfl

/-- What is said about a field stands in an entry with its name. -/
theorem exists_mem_of_said? {α : Type} {x : α} {entries : List (String × α)}
    (h : said? entries f = some x) :
    ∃ name, (name, x) ∈ entries ∧ Field.ofName? name = some f := by
  obtain ⟨⟨name, y⟩, hfind, rfl⟩ := Option.map_eq_some_iff.mp h
  exact ⟨name, List.mem_reverse.mp (List.mem_of_find?_eq_some hfind),
    by simpa using List.find?_some hfind⟩

/-- Every field is spelled in one way at most. -/
def SpelledOnce {α : Type} (entries : List (String × α)) : Prop :=
  (entries.filterMap fun entry => Field.ofName? entry.1).Nodup

/-- How often fields are spelled does not depend on the order. -/
theorem SpelledOnce.perm {α : Type} {entries entries' : List (String × α)}
    (h : SpelledOnce entries) (hperm : entries.Perm entries') : SpelledOnce entries' :=
  (hperm.filterMap _).nodup_iff.mp h

/-- If every field is spelled once, what is said about one is what stands there, first or last. -/
theorem SpelledOnce.said?_eq_some_iff {α : Type} {x : α} {entries : List (String × α)}
    (h : SpelledOnce entries) :
    said? entries f = some x ↔ ∃ name, (name, x) ∈ entries ∧ Field.ofName? name = some f := by
  refine ⟨exists_mem_of_said?, ?_⟩
  rintro ⟨name, hmem, hname⟩
  induction entries with
  | nil => cases hmem
  | cons entry entries ih =>
    rw [said?_cons]
    obtain rfl | hmem := List.mem_cons.mp hmem
    · -- another entry for the field, further on, would be a second spelling
      have hnone : said? entries f = none := by
        rw [Option.eq_none_iff_forall_ne_some]
        intro y hy
        obtain ⟨other, hother, hfield⟩ := exists_mem_of_said? hy
        simp only [SpelledOnce, List.filterMap_cons, hname, List.nodup_cons] at h
        exact h.1 (List.mem_filterMap.mpr ⟨_, hother, hfield⟩)
      rw [hnone, said?_singleton, if_pos hname, Option.none_or]
    · have hrest : SpelledOnce entries := h.sublist ((List.sublist_cons_self _ _).filterMap _)
      rw [ih hrest hmem, Option.some_or]

/-- The layer of a file that spells every field once does not depend on the order of its lines. -/
theorem Layer.ofLines_perm {lines' : List (String × Toml.Scalar)} (h : SpelledOnce lines)
    (hperm : lines.Perm lines') : Layer.ofLines lines = Layer.ofLines lines' := by
  have hsaid : ∀ f, said? lines f = said? lines' f := by
    intro f
    ext v
    rw [h.said?_eq_some_iff, (h.perm hperm).said?_eq_some_iff]
    simp only [hperm.mem_iff]
  simp only [Layer.ofLines, hsaid]

/-- Every line gives a field a value of its type. -/
def Typed (lines : List (String × Toml.Scalar)) : Prop :=
  ∀ line ∈ lines, ∃ f, Field.ofName? line.1 = some f ∧ f.takes line.2 = true

/-- What such lines say about a field is of its type. -/
theorem Typed.takes_of_said? (h : Typed lines) (hsaid : said? lines f = some v) :
    f.takes v = true := by
  obtain ⟨name, hmem, hname⟩ := exists_mem_of_said? hsaid
  obtain ⟨g, hg, htakes⟩ := h _ hmem
  rw [hname] at hg
  cases hg
  exact htakes

/-- What is said last about a field can be read, so what was said before does not matter. -/
theorem Typed.bind_said?_cons {α : Type} {read? : Toml.Scalar → Option α} (h : Typed lines)
    (hread : ∀ v, f.takes v = true → (read? v).isSome = true) (line : String × Toml.Scalar) :
    (said? (line :: lines) f).bind read? =
      ((said? lines f).bind read?).or ((said? [line] f).bind read?) := by
  rw [said?_cons]
  cases hsaid : said? lines f with
  | none => rfl
  | some v =>
    obtain ⟨x, hx⟩ := Option.isSome_iff_exists.mp (hread v (h.takes_of_said? hsaid))
    simp [hx]

/-- A line may be laid on first, and the others on top of it. -/
theorem Typed.onto_cons (h : Typed lines) (line : String × Toml.Scalar) (s : Settings) :
    (Layer.ofLines (line :: lines)).onto s =
      (Layer.ofLines lines).onto ((Layer.ofLines [line]).onto s) := by
  have htext : ∀ f, f = .verbosity ∨ f = .prompt → ∀ v, Field.takes f v = true →
      (Toml.Scalar.text? v).isSome = true := by
    rintro f (rfl | rfl) v <;> cases v <;> simp [Field.takes, Toml.Scalar.text?]
  have hinteger : ∀ v, Field.takes .stackMax v = true →
      (Toml.Scalar.integer? v).isSome = true := by
    intro v
    cases v <;> simp [Field.takes, Toml.Scalar.integer?]
  have hboolean : ∀ f, f = .strictDivision ∨ f = .trace → ∀ v, Field.takes f v = true →
      (Toml.Scalar.boolean? v).isSome = true := by
    rintro f (rfl | rfl) v <;> cases v <;> simp [Field.takes, Toml.Scalar.boolean?]
  simp only [Layer.onto, Layer.ofLines, h.bind_said?_cons (htext _ (.inl rfl)),
    h.bind_said?_cons (htext _ (.inr rfl)), h.bind_said?_cons hinteger,
    h.bind_said?_cons (hboolean _ (.inl rfl)), h.bind_said?_cons (hboolean _ (.inr rfl)),
    Option.getD_or]

/-- Setting a field to a scalar of its type lays on the layer of that line. -/
theorem set?_scalar (s : Settings) (h : Field.ofName? name = some f) (htakes : f.takes v = true) :
    s.set? f (.scalar v) = some ((Layer.ofLines [(name, v)]).onto s) := by
  simp only [Layer.ofLines, Layer.onto, said?_singleton, h]
  cases f <;> cases v <;> first | rfl | cases htakes

/-- Setting all fields of a table lays on the layer of its lines. -/
theorem setAll?_plainEntries (h : Typed lines) (s : Settings) :
    setAll? s (lines.map Toml.plainEntry) = some ((Layer.ofLines lines).onto s) := by
  induction lines generalizing s with
  | nil => rfl
  | cons line lines ih =>
    obtain ⟨name, v⟩ := line
    obtain ⟨f, hname, htakes⟩ := h _ List.mem_cons_self
    have hrest : Typed lines := fun line hline => h line (List.mem_cons_of_mem _ hline)
    simp only [List.map_cons, Toml.plainEntry, setAll?, hname, set?_scalar s hname htakes]
    rw [ih hrest, hrest.onto_cons]

/-- A field is set only to a scalar of its type. -/
theorem takes_of_set? {node : Toml.Node} (h : s.set? f node = some s') :
    ∃ v, node = .scalar v ∧ f.takes v = true := by
  unfold set? at h
  split at h
  · exact ⟨_, rfl, rfl⟩
  · exact ⟨_, rfl, rfl⟩
  · exact ⟨_, rfl, rfl⟩
  · exact ⟨_, rfl, rfl⟩
  · exact ⟨_, rfl, rfl⟩
  · cases h

/-- Fields are set only to scalars of their types. -/
theorem takes_of_setAll? {t : Toml.Table} (h : setAll? s t = some s') {entry : String × Toml.Node}
    (hmem : entry ∈ t) (hname : Field.ofName? entry.1 = some f) :
    ∃ v, entry.2 = .scalar v ∧ f.takes v = true := by
  fun_induction setAll? s t with
  | case1 => cases hmem
  | case2 s name node rest hnone ih =>
    obtain rfl | hmem := List.mem_cons.mp hmem
    · rw [hnone] at hname
      cases hname
    · exact ih h hmem
  | case3 => cases h
  | case4 s name node rest g hg s₁ hset ih =>
    obtain rfl | hmem := List.mem_cons.mp hmem
    · rw [hg] at hname
      cases hname
      exact takes_of_set? hset
    · exact ih h hmem

/-! ## Files that are accepted -/

/-- A key is known if it has one part and that is the name of a field. -/
theorem isKnown_iff {key : Toml.Key} :
    isKnown key = true ↔ ∃ name f, key = [name] ∧ Field.ofName? name = some f := by
  unfold isKnown
  split
  · simp [Option.isSome_iff_exists]
  · rename_i hne
    simp only [Bool.false_eq_true, false_iff, not_exists]
    rintro name f ⟨rfl, -⟩
    exact hne name rfl

/-- There are no other keys just when all keys are known. -/
theorem strangers_eq_nil_iff {doc : Toml.Document} :
    strangers doc = [] ↔ ∀ key ∈ doc.keys, isKnown key = true := by
  rw [strangers, ← List.length_eq_zero_iff, List.length_mergeSort]
  simp [List.filter_eq_nil_iff]

/-- The empty name is that of no field. -/
theorem ofName?_empty : Field.ofName? "" = none := by decide

/-- The lines of a file give fields values of their types, and no name twice. -/
structure WellFormed (content : Bytes) (lines : List (String × Toml.Scalar)) : Prop where
  statements : Toml.statements? content = some (lines.map Toml.plainLine)
  nodup : (lines.map Prod.fst).Nodup
  typed : Typed lines

/-- A well-formed file is read as the list of its lines, and has no other keys. -/
theorem WellFormed.document (h : WellFormed content lines) :
    ∃ doc, Toml.Document.read? content = some doc ∧ doc.root = lines.map Toml.plainEntry ∧
      strangers doc = [] := by
  obtain ⟨doc, hread, hroot, hkeys⟩ := Toml.Document.read?_of_plain h.statements h.nodup
  refine ⟨doc, hread, hroot, strangers_eq_nil_iff.mpr fun key hkey => ?_⟩
  rw [hkeys, List.mem_reverse, List.mem_map] at hkey
  obtain ⟨line, hline, rfl⟩ := hkey
  obtain ⟨f, hname, -⟩ := h.typed line hline
  exact isKnown_iff.mpr ⟨line.1, f, rfl, hname⟩

/-- A document whose keys are those of fields, and whose fields can be set, is that of a well-formed
file. -/
theorem exists_wellFormed {doc : Toml.Document} (hread : Toml.Document.read? content = some doc)
    (hset : setAll? s doc.root = some s') (hknown : strangers doc = []) :
    ∃ lines, WellFormed content lines ∧ doc.root = lines.map Toml.plainEntry := by
  rw [strangers_eq_nil_iff] at hknown
  have hflat : doc.Flat := by
    intro key hkey
    obtain ⟨name, f, rfl, hname⟩ := isKnown_iff.mp (hknown key hkey)
    refine ⟨name, ?_, rfl⟩
    rintro rfl
    rw [ofName?_empty] at hname
    cases hname
  have hscalar : ∀ name node, [name] ∈ doc.keys → doc.root.lookup name = some node →
      node.isScalar = true := by
    intro name node hkey hlookup
    obtain ⟨_, f, heq, hname⟩ := isKnown_iff.mp (hknown _ hkey)
    cases heq
    obtain ⟨before, after, hroot, -⟩ := List.lookup_eq_some_iff.mp hlookup
    have hmem : (name, node) ∈ doc.root := by simp [hroot]
    obtain ⟨v, rfl, -⟩ := takes_of_setAll? hset hmem hname
    rfl
  obtain ⟨lines, hlines, hnodup, hroot⟩ := Toml.Document.plain_of_read? hread hflat hscalar
  -- the keys of the document are the names in these lines, so each of them is that of a field
  obtain ⟨doc', hread', -, hkeys⟩ := Toml.Document.read?_of_plain hlines hnodup
  rw [hread] at hread'
  cases hread'
  refine ⟨lines, ⟨hlines, hnodup, fun line hline => ?_⟩, hroot⟩
  have hkey : [line.1] ∈ doc.keys := by
    rw [hkeys, List.mem_reverse]
    exact List.mem_map_of_mem hline
  obtain ⟨_, f, heq, hname⟩ := isKnown_iff.mp (hknown _ hkey)
  cases heq
  have hmem : Toml.plainEntry line ∈ doc.root := by
    rw [hroot]
    exact List.mem_map_of_mem hline
  obtain ⟨v, heq, htakes⟩ := takes_of_setAll? hset hmem hname
  cases heq
  exact ⟨f, hname, htakes⟩

/-- The check asks for the name of a level, and for room on the stack. -/
theorem validate_eq_ok_iff : s.validate = .ok () ↔ IsName s.verbosity ∧ 1 ≤ s.stackMax := by
  rw [← Log.Level.isSome_ofName?]
  cases hlevel : Log.Level.ofName? s.verbosity with
  | none => simp [validate, hlevel]
  | some level =>
    have hroom : ¬ s.stackMax ≤ 0 ↔ 1 ≤ s.stackMax := by omega
    simp [validate, hlevel, ← hroom]

/-- No value of a layer is bad in itself. -/
structure Layer.Sound (l : Layer) : Prop where
  level : ∀ v, l.verbosity = some v → IsName v
  room : ∀ n, l.stackMax = some n → 1 ≤ n

/-- The defaults pass the check, so that it is about the layer on top of them. -/
theorem Layer.sound_iff {l : Layer} : l.Sound ↔ (l.settings origin).validate = .ok () := by
  have hlevel : IsName (l.verbosity.getD "INFO") ↔ ∀ v, l.verbosity = some v → IsName v := by
    cases l.verbosity with
    | none => simpa using by decide
    | some v => simp
  have hroom : 1 ≤ l.stackMax.getD 256 ↔ ∀ n, l.stackMax = some n → 1 ≤ n := by
    cases l.stackMax with
    | none => simp
    | some n => simp
  rw [validate_eq_ok_iff]
  exact ⟨fun h => ⟨hlevel.mpr h.level, hroom.mpr h.room⟩,
    fun h => ⟨hlevel.mp h.1, hroom.mp h.2⟩⟩

/-- A file is accepted if it is read, all its fields can be set, it has no other keys, and the
outcome passes the check. -/
theorem ofFile_eq_ok_iff_document : ofFile path content = .ok s ↔ ∃ doc s₀,
    Toml.Document.read? content = some doc ∧ setAll? {} doc.root = some s₀ ∧ strangers doc = [] ∧
      s = { s₀ with origin := path } ∧ s.validate = .ok () := by
  simp only [ofFile]
  constructor
  · intro h
    split at h
    · cases h
    rename_i doc hread
    split at h
    · cases h
    rename_i s₀ hset
    split at h
    · cases h
    rename_i hothers
    split at h
    · cases h
    rename_i hvalid
    cases h
    exact ⟨doc, s₀, hread, hset, by simpa using hothers, rfl, hvalid⟩
  · rintro ⟨doc, s₀, hread, hset, hothers, rfl, hvalid⟩
    simp [hread, hset, hothers, hvalid]

/-- A file is accepted if its lines give fields values of their types, no name twice, and no bad
values. -/
theorem ofFile_eq_ok_iff : ofFile path content = .ok s ↔ ∃ lines,
    WellFormed content lines ∧ (Layer.ofLines lines).Sound ∧
      s = (Layer.ofLines lines).settings path := by
  rw [ofFile_eq_ok_iff_document]
  constructor
  · rintro ⟨doc, s₀, hread, hset, hothers, rfl, hvalid⟩
    obtain ⟨lines, hformed, hroot⟩ := exists_wellFormed hread hset hothers
    rw [hroot, setAll?_plainEntries hformed.typed] at hset
    cases hset
    exact ⟨lines, hformed, Layer.sound_iff.mpr hvalid, rfl⟩
  · rintro ⟨lines, hformed, hsound, rfl⟩
    obtain ⟨doc, hread, hroot, hothers⟩ := hformed.document
    refine ⟨doc, _, hread, ?_, hothers, rfl, Layer.sound_iff.mp hsound⟩
    rw [hroot, setAll?_plainEntries hformed.typed]

/-- The document of a file has something that the file must not have: a key that is not that of a
field, or a bad value for the verbosity or the limit. A bad value is meant that counts, which is any
if the file spells the field once (`SpelledOnce.said?_eq_some_iff`). -/
inductive Spoiled (doc : Toml.Document) : Prop where
  | stranger {key : Toml.Key} (hmem : key ∈ doc.keys) (hunknown : isKnown key = false)
  | level {v : String} (hsaid : said? doc.root .verbosity = some (.scalar (.text v)))
      (hbad : ¬ IsName v)
  | room {n : Int} (hsaid : said? doc.root .stackMax = some (.scalar (.integer n)))
      (hbad : n ≤ 0)

/-- A file with something in it that it must not have is not accepted. -/
theorem ofFile_ne_ok_of_spoiled {doc : Toml.Document}
    (hread : Toml.Document.read? content = some doc) (h : Spoiled doc) (s : Settings) :
    ofFile path content ≠ .ok s := by
  intro hok
  obtain ⟨lines, hformed, hsound, -⟩ := ofFile_eq_ok_iff.mp hok
  obtain ⟨doc', hread', hroot, hothers⟩ := hformed.document
  rw [hread] at hread'
  cases hread'
  -- what the document says about a field stands in a line
  have hline : ∀ f v, said? doc.root f = some (.scalar v) → said? lines f = some v := by
    intro f v hsaid
    simpa [hroot, said?_map_plainEntry] using hsaid
  cases h with
  | stranger hmem hunknown =>
    rw [strangers_eq_nil_iff.mp hothers _ hmem] at hunknown
    cases hunknown
  | level hsaid hbad =>
    apply hbad (hsound.level _ _)
    simp [Layer.ofLines, hline _ _ hsaid, Toml.Scalar.text?]
  | @room n hsaid hbad =>
    have hroom : 1 ≤ n := by
      apply hsound.room
      simp [Layer.ofLines, hline _ _ hsaid, Toml.Scalar.integer?]
    omega

/-- The error is one of the settings, and it names a file. -/
def Error.Names (e : Error) (path : String) : Prop :=
  ∃ reason, e.failure = .settings path reason ∧
    e.failure.text = "config error [" ++ path ++ "]: " ++ reason

/-- The text of a failure of the settings names the file. -/
theorem text_settings (hpath : path ≠ "") (reason : String) :
    (Failure.settings path reason).text = "config error [" ++ path ++ "]: " ++ reason := by
  have hempty : path.isEmpty = false := by simpa using hpath
  change Failure.settingsText path reason = _
  rw [Failure.settingsText, if_neg (by simp [hempty])]

/-- An error that is reported as a failure of the settings of a file names the file. -/
theorem Error.names_of_failure {e : Error} {reason : String} (hpath : path ≠ "")
    (h : e.failure = .settings path reason) : e.Names path := by
  refine ⟨reason, h, ?_⟩
  rw [h, text_settings hpath]

/-- Settings that do not pass the check are blamed on the file they come from. -/
theorem names_of_validate {e : Error} (horigin : s.origin ≠ "") (h : s.validate = .error e) :
    e.Names s.origin := by
  unfold validate at h
  split at h
  · cases h
    exact Error.names_of_failure horigin rfl
  split at h
  · cases h
    exact Error.names_of_failure horigin rfl
  · cases h

/-- Whatever is wrong with a file, the error names it. -/
theorem names_of_ofFile {e : Error} (hpath : path ≠ "") (h : ofFile path content = .error e) :
    e.Names path := by
  simp only [ofFile] at h
  split at h
  · cases h
    exact Error.names_of_failure hpath rfl
  split at h
  · cases h
    exact Error.names_of_failure hpath rfl
  split at h
  · cases h
    exact Error.names_of_failure hpath rfl
  split at h
  · rename_i s₀ _ _ _ hvalid
    cases h
    exact names_of_validate hpath hvalid
  · cases h

/-! ## Files that are found -/

/-- There is always a path to look at. -/
theorem placeOf_ne_empty (path : String) : placeOf path ≠ "" := by
  unfold placeOf
  split
  · decide
  · rename_i hpath
    simpa using hpath

/-- What a directory holds for the settings: a file that is accepted, or nothing, if no file was
asked for and the default one is missing. -/
inductive Found (d : Directory) (path : String) : Layer → String → Prop where
  | file {content : Bytes} {lines : List (String × Toml.Scalar)}
      (hread : d.read (placeOf path) = .ok content) (hformed : WellFormed content lines)
      (hsound : (Layer.ofLines lines).Sound) : Found d path (.ofLines lines) (placeOf path)
  | nothing (hpath : path = "") (hread : d.read defaultPath = .error .missing) : Found d path {} ""

/-- A file that can be read decides about the settings. -/
theorem load_of_read (h : d.read (placeOf path) = .ok content) :
    load d path = ofFile (placeOf path) content := by
  simp only [load, h]

/-- The settings that are loaded are those of what is found, on top of the defaults. -/
theorem load_eq_ok_iff : load d path = .ok s ↔
    ∃ file origin, Found d path file origin ∧ s = file.settings origin := by
  constructor
  · intro h
    cases hread : d.read (placeOf path) with
    | ok content =>
      rw [load_of_read hread, ofFile_eq_ok_iff] at h
      obtain ⟨lines, hformed, hsound, rfl⟩ := h
      exact ⟨_, _, .file hread hformed hsound, rfl⟩
    | error fault =>
      simp only [load, hread] at h
      split at h
      · rename_i hmissing
        obtain ⟨rfl, rfl⟩ : path = "" ∧ fault = .missing := by simpa using hmissing
        cases h
        exact ⟨{}, "", .nothing rfl hread, rfl⟩
      · cases h
  · rintro ⟨file, origin, hfound, rfl⟩
    cases hfound with
    | file hread hformed hsound =>
      rw [load_of_read hread, ofFile_eq_ok_iff]
      exact ⟨_, hformed, hsound, rfl⟩
    | nothing hpath hread =>
      subst hpath
      have hread' : d.read (placeOf "") = .error .missing := hread
      simp only [load, hread']
      rfl

/-- If reading the default file finds nothing, nothing stands there. -/
theorem not_occupied_of_missing (h : d.read defaultPath = .error .missing) :
    ¬ d.Occupied [defaultPath] := by
  have hplace : Directory.components defaultPath = [defaultPath] := by decide
  intro hoccupied
  have hkind := Directory.kind?_ne_none_of_occupied hoccupied
  simp only [Directory.read, hplace] at h
  split at h
  · rename_i hempty
    exact absurd hempty (by decide)
  split at h
  · cases h
  split at h
  · contradiction
  · cases h
  · cases h
  · split at h <;> cases h

end Settings

/-! ## Flags on top -/

namespace Cli.Flags

open Settings

variable {d : Directory} {fs : Flags} {s : Settings} {file : Layer} {origin : String}

/-- The settings that come about from the flags, what a file says, and the defaults. -/
structure Effective (fs : Flags) (file : Layer) (origin : String) (s : Settings) : Prop where
  room : 1 ≤ s.stackMax
  level : IsName s.verbosity
  strictDivision : s.strictDivision = (fs.strictDivision.or file.strictDivision).getD false
  trace : s.trace = (fs.trace.or file.trace).getD false
  stackMax : s.stackMax = (fs.stackMax.or file.stackMax).getD 256
  /-- Tracing calls for the verbosity that shows it. -/
  verbosity : s.verbosity =
    if s.trace then "trace" else (fs.verbosity.or file.verbosity).getD "INFO"
  /-- There is no flag for the prompt. -/
  prompt : s.prompt = file.prompt.getD ">> "
  origin : s.origin = origin

/-- For each field the flags come first, then the file, then the default, and tracing decides about
the verbosity. -/
theorem apply_settings (fs : Flags) (file : Layer) (origin : String) :
    fs.apply (file.settings origin) =
      { verbosity := if (fs.trace.or file.trace).getD false then "trace"
          else (fs.verbosity.or file.verbosity).getD "INFO"
        prompt := file.prompt.getD ">> "
        stackMax := (fs.stackMax.or file.stackMax).getD 256
        strictDivision := (fs.strictDivision.or file.strictDivision).getD false
        trace := (fs.trace.or file.trace).getD false
        origin := origin } := by
  simp only [Option.getD_or]
  rfl

/-- The settings that come about are the flags on top of the file, if they pass the check. -/
theorem effective_iff : Effective fs file origin s ↔
    s = fs.apply (file.settings origin) ∧ s.validate = .ok () := by
  rw [validate_eq_ok_iff, apply_settings]
  constructor
  · intro h
    refine ⟨?_, h.level, h.room⟩
    rw [← h.trace, ← h.verbosity, ← h.prompt, ← h.stackMax, ← h.strictDivision, ← h.origin]
  · rintro ⟨rfl, hlevel, hroom⟩
    exact ⟨hroom, hlevel, rfl, rfl, rfl, rfl, rfl, rfl⟩

/-- The settings under some flags are those that were loaded, with the flags on top, if they pass
the check again. -/
theorem settings_eq_ok_iff : fs.settings d = .ok s ↔
    ∃ s₀, load d fs.config = .ok s₀ ∧ s = fs.apply s₀ ∧ s.validate = .ok () := by
  unfold settings
  constructor
  · intro h
    split at h
    · cases h
    rename_i s₀ hload
    dsimp only at h
    split at h
    · cases h
    rename_i hvalid
    cases h
    exact ⟨s₀, hload, rfl, hvalid⟩
  · rintro ⟨s₀, hload, rfl, hvalid⟩
    simp [hload, hvalid]

/-- The settings that hold are those that come about from what is found. -/
theorem settings_eq_ok_iff_effective : fs.settings d = .ok s ↔
    ∃ file origin, Found d fs.config file origin ∧ Effective fs file origin s := by
  rw [settings_eq_ok_iff]
  constructor
  · rintro ⟨s₀, hload, hs, hvalid⟩
    obtain ⟨file, origin, hfound, rfl⟩ := load_eq_ok_iff.mp hload
    exact ⟨file, origin, hfound, effective_iff.mpr ⟨hs, hvalid⟩⟩
  · rintro ⟨file, origin, hfound, heffective⟩
    obtain ⟨hs, hvalid⟩ := effective_iff.mp heffective
    exact ⟨_, load_eq_ok_iff.mpr ⟨file, origin, hfound, rfl⟩, hs, hvalid⟩

/-- A file that was read and is rejected is what the error is about, whatever the flags are. -/
theorem names_of_rejected {content : Bytes} (hread : d.read (placeOf fs.config) = .ok content)
    (h : ∀ s, ofFile (placeOf fs.config) content ≠ .ok s) :
    ∃ e, fs.settings d = .error e ∧ e.Names (placeOf fs.config) := by
  cases hfile : ofFile (placeOf fs.config) content with
  | ok s => exact absurd hfile (h s)
  | error e =>
    refine ⟨e, ?_, names_of_ofFile (placeOf_ne_empty _) hfile⟩
    simp only [settings, load_of_read hread, hfile]

/-- The settings that hold, for every directory and all flags. They are those that come about from
the flags, what a file says, and the defaults, and there are none in any other case. They hold
without a file only if none was asked for and nothing stands at the default path. If the file has a
key that is not that of a field, or itself a bad verbosity or a bad limit, there is an error that
names the file, whatever the flags are. -/
theorem effective_settings (d : Directory) (fs : Flags) :
    (∀ s, fs.settings d = .ok s ↔
      ∃ file origin, Found d fs.config file origin ∧ Effective fs file origin s) ∧
    (∀ s, fs.settings d = .ok s → (∀ content, d.read (placeOf fs.config) ≠ .ok content) →
      fs.config = "" ∧ ¬ d.Occupied [defaultPath]) ∧
    ∀ content doc, d.read (placeOf fs.config) = .ok content →
      Toml.Document.read? content = some doc → Spoiled doc →
      ∃ e, fs.settings d = .error e ∧ e.Names (placeOf fs.config) := by
  refine ⟨fun s => settings_eq_ok_iff_effective, ?_, ?_⟩
  · intro s hsettings hunread
    obtain ⟨file, origin, hfound, -⟩ := settings_eq_ok_iff_effective.mp hsettings
    cases hfound with
    | file hread _ _ => exact absurd hread (hunread _)
    | nothing hpath hread => exact ⟨hpath, not_occupied_of_missing hread⟩
  · intro content doc hread hdoc hspoiled
    exact names_of_rejected hread (ofFile_ne_ok_of_spoiled hdoc hspoiled)

/-- A directory with a file of settings. -/
def furnished (text : String) : Directory where
  entries := [(["loxide.toml"], .file (Utf8.ofString text))]

/-- The flag that asks for a stack of sixteen values. -/
def sixteen : Flags where
  stackMax := some 16

/-- The flag takes the place of the limit in a file, and of that of the defaults, but it does not
mend a bad one. -/
theorem effective_settings_sixteen :
    (∃ s file, sixteen.settings (furnished "Stack_Max = 8\nverbosity = \"warn\"\n") = .ok s ∧
      Effective sixteen file "loxide.toml" s ∧ s.stackMax = 16 ∧ s.verbosity = "warn") ∧
    (∃ s, sixteen.settings {} = .ok s ∧ ¬ Directory.Occupied {} ["loxide.toml"]) ∧
    ∃ e, sixteen.settings (furnished "stack_max = 0\n") = .error e ∧ e.Names "loxide.toml" := by
  refine ⟨?_, ?_, ?_⟩
  · have hsettings : sixteen.settings (furnished "Stack_Max = 8\nverbosity = \"warn\"\n") =
        .ok { verbosity := "warn", stackMax := 16, origin := "loxide.toml" } := by
      decide +kernel
    obtain ⟨file, origin, -, heffective⟩ := ((effective_settings _ _).1 _).mp hsettings
    obtain rfl : "loxide.toml" = origin := heffective.origin
    exact ⟨_, file, hsettings, heffective, rfl, rfl⟩
  · have hsettings : sixteen.settings {} = .ok { stackMax := 16 } := by decide +kernel
    have hmissing : Directory.read {} (placeOf sixteen.config) = .error .missing := by decide
    have hunread : ∀ content, Directory.read {} (placeOf sixteen.config) ≠ .ok content := by
      simp [hmissing]
    exact ⟨_, hsettings, ((effective_settings {} sixteen).2.1 _ hsettings hunread).2⟩
  · have hdoc : ((Toml.Document.read? (Utf8.ofString "stack_max = 0\n")).map fun doc =>
        said? doc.root .stackMax) = some (some (.scalar (.integer 0))) := by decide +kernel
    obtain ⟨doc, hdoc, hsaid⟩ := Option.map_eq_some_iff.mp hdoc
    exact (effective_settings _ sixteen).2.2 _ doc (by decide) hdoc (.room hsaid (by decide))

end Cli.Flags

end Lox
