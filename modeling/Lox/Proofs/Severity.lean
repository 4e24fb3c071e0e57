import Lox.Cli.Run

/-!
# The exit status depends on the kinds of cause alone

A failure is a tree: context stands around failures, and several of them stand together, to any
depth. The exit status is looked up kind by kind, the gravest first, each time over the whole tree.
So it cannot depend on where in the tree a cause stands, how often it does, or what stands before
it.

* `Occurs` says that a cause stands somewhere in a failure, by the shape of the tree, and
  `exitStatus_eq` reads the status off the kinds that occur.
* `Rearranged` relates failures that differ in how their causes are put together: in the context
  around them, and in the grouping, the order and the number of the members, at any depth. It leaves
  the occurring kinds as they are (`Rearranged.occurs_iff`).
* Putting failures together is such a rearrangement of their list (`rearranged_of_join?`), unless
  there is nothing in them: then there is no failure (`join?_eq_none_iff`).
-/

namespace Lox.Failure

variable {c : Cause} {about : String} {f g : Failure} {fs gs : List Failure}

/-! ## Occurring causes -/

/-- A cause stands somewhere in a failure. -/
inductive Occurs : Cause → Failure → Prop where
  | compilation {line : Int} {reason : String} : Occurs .source (.compilation line reason)
  | runtime {line fault : Int} {reason : String} : Occurs .run (.runtime line fault reason)
  | settings {origin reason : String} : Occurs .settings (.settings origin reason)
  | file {text : String} : Occurs .file (.file text)
  | other {text : String} : Occurs .other (.other text)
  | context {c : Cause} {about : String} {inner : Failure} (h : Occurs c inner) :
      Occurs c (.context about inner)
  | member {c : Cause} {f : Failure} {members : List Failure} (hmem : f ∈ members)
      (h : Occurs c f) : Occurs c (.several members)

/-- Context around a failure makes no difference to what occurs. -/
@[simp] theorem occurs_context : Occurs c (.context about f) ↔ Occurs c f := by
  constructor
  · rintro ⟨⟩
    assumption
  · exact .context

/-- A cause occurs in several failures if it does in one of them. -/
@[simp] theorem occurs_several : Occurs c (.several fs) ↔ ∃ f ∈ fs, Occurs c f := by
  constructor
  · rintro ⟨⟩
    exact ⟨_, ‹_›, ‹_›⟩
  · rintro ⟨f, hmem, h⟩
    exact .member hmem h

/-- The causes of several failures are those of each. -/
theorem mem_causesOfAll : c ∈ causesOfAll fs ↔ ∃ f ∈ fs, c ∈ f.causes := by
  induction fs with
  | nil => simp [causesOfAll]
  | cons f fs ih => simp [causesOfAll, ih]

mutual

/-- A listed cause occurs. The induction is on the failure, together with that on lists of failures.
-/
theorem occurs_of_mem_causes : (f : Failure) → c ∈ f.causes → Occurs c f
  | .compilation .., h => by
    rw [causes, List.mem_singleton] at h
    exact h ▸ .compilation
  | .runtime .., h => by
    rw [causes, List.mem_singleton] at h
    exact h ▸ .runtime
  | .settings .., h => by
    rw [causes, List.mem_singleton] at h
    exact h ▸ .settings
  | .file _, h => by
    rw [causes, List.mem_singleton] at h
    exact h ▸ .file
  | .other _, h => by
    rw [causes, List.mem_singleton] at h
    exact h ▸ .other
  | .context _ inner, h => by
    rw [causes] at h
    exact .context (occurs_of_mem_causes inner h)
  | .several members, h => by
    rw [causes] at h
    exact occurs_several.mpr (exists_occurs_of_mem_causesOfAll members h)

/-- A listed cause of several failures occurs in one of them. -/
theorem exists_occurs_of_mem_causesOfAll :
    (fs : List Failure) → c ∈ causesOfAll fs → ∃ f ∈ fs, Occurs c f
  | [], h => by simp [causesOfAll] at h
  | f :: fs, h => by
    rw [causesOfAll, List.mem_append] at h
    rcases h with h | h
    · exact ⟨f, List.mem_cons_self, occurs_of_mem_causes f h⟩
    · obtain ⟨g, hmem, hg⟩ := exists_occurs_of_mem_causesOfAll fs h
      exact ⟨g, List.mem_cons_of_mem f hmem, hg⟩

end

/-- The list of causes holds those that occur. -/
theorem mem_causes_iff : c ∈ f.causes ↔ Occurs c f := by
  refine ⟨occurs_of_mem_causes f, fun h => ?_⟩
  induction h with
  | compilation | runtime | settings | file | other => simp [causes]
  | context h ih => rwa [causes]
  | member hmem h ih =>
    rw [causes]
    exact mem_causesOfAll.mpr ⟨_, hmem, ih⟩

instance : Decidable (Occurs c f) :=
  decidable_of_iff (c ∈ f.causes) mem_causes_iff

/-- The exit status of a failure, by the kinds of cause that occur in it. -/
theorem exitStatus_eq (f : Failure) : f.exitStatus =
    if Occurs .source f then 65
    else if Occurs .run f then 70
    else if Occurs .settings f then 64
    else if Occurs .file f then 74
    else 64 := by
  have hcontains (c : Cause) : f.causes.contains c = decide (Occurs c f) := by
    rw [Bool.eq_iff_iff, List.contains_iff_mem, decide_eq_true_iff]
    exact mem_causes_iff
  simp only [exitStatus, statuses, List.find?_cons, hcontains]
  by_cases hsource : Occurs .source f
  · simp [hsource]
  by_cases hrun : Occurs .run f
  · simp [hsource, hrun]
  by_cases hsettings : Occurs .settings f
  · simp [hsource, hrun, hsettings, usageStatus]
  by_cases hfile : Occurs .file f
  · simp [hsource, hrun, hsettings, hfile]
  · simp [hsource, hrun, hsettings, hfile, usageStatus]

/-- Failures in which the same kinds of cause occur have the same exit status. -/
theorem exitStatus_congr (h : ∀ c, Occurs c f ↔ Occurs c g) : f.exitStatus = g.exitStatus := by
  simp only [exitStatus_eq, h]

/-! ## Rearrangements -/

/-- Two failures are put together from the same causes in two ways. This is the least congruence by
which the context around a failure, the grouping of members, their order and their number do not
matter. -/
inductive Rearranged : Failure → Failure → Prop where
  | refl (f : Failure) : Rearranged f f
  | symm {f g : Failure} (h : Rearranged f g) : Rearranged g f
  | trans {f g h : Failure} (hfg : Rearranged f g) (hgh : Rearranged g h) : Rearranged f h
  /-- Context makes no difference. -/
  | unwrapped (about : String) (f : Failure) : Rearranged (.context about f) f
  /-- One failure alone is that failure. -/
  | alone (f : Failure) : Rearranged (.several [f]) f
  /-- Members that are several may take their place one by one. -/
  | flattened (before members after : List Failure) :
      Rearranged (.several (before ++ .several members :: after))
        (.several (before ++ members ++ after))
  | reordered {fs gs : List Failure} (h : fs.Perm gs) : Rearranged (.several fs) (.several gs)
  /-- A member that is there twice may be there once. -/
  | repeated (f : Failure) (fs : List Failure) :
      Rearranged (.several (f :: f :: fs)) (.several (f :: fs))
  | within {f g : Failure} (about : String) (h : Rearranged f g) :
      Rearranged (.context about f) (.context about g)
  | among {f g : Failure} (before after : List Failure) (h : Rearranged f g) :
      Rearranged (.several (before ++ f :: after)) (.several (before ++ g :: after))

/-- A rearrangement keeps the kinds of cause that occur. -/
theorem Rearranged.occurs_iff (h : Rearranged f g) (c : Cause) : Occurs c f ↔ Occurs c g := by
  induction h with
  | refl => rfl
  | symm _ ih => exact ih.symm
  | trans _ _ ih ih' => exact ih.trans ih'
  | unwrapped => exact occurs_context
  | alone => simp
  | flattened => simp [or_and_right, exists_or]
  | reordered h => simp only [occurs_several, h.mem_iff]
  | repeated => simp
  | within _ _ ih => simpa using ih
  | among _ _ _ ih => simp [or_and_right, exists_or, ih]

/-! ## Failures put together -/

/-- Members that are several themselves may all take their places one by one. -/
theorem rearranged_flatMap_members (before fs : List Failure) :
    Rearranged (.several (before ++ fs)) (.several (before ++ fs.flatMap members)) := by
  induction fs generalizing before with
  | nil => exact .refl _
  | cons f fs ih =>
    have hone : Rearranged (.several (before ++ f :: fs))
        (.several (before ++ f.members ++ fs)) := by
      cases f with
      | several ms => exact .flattened before ms fs
      | _ => simpa [members] using .refl _
    rw [List.flatMap_cons, ← List.append_assoc]
    exact hone.trans (ih (before ++ f.members))

/-- Putting failures together gives none just when there is nothing in any of them. -/
theorem join?_eq_none_iff : join? fs = none ↔ ∀ f ∈ fs, f = .several [] := by
  have hmembers : ∀ f : Failure, f.members = [] ↔ f = .several [] := by
    intro f
    cases f <;> simp [members]
  simp [join?, hmembers]

/-- Failures that are put together are several failures, in another arrangement. -/
theorem rearranged_of_join? (h : join? fs = some f) : Rearranged (.several fs) f := by
  have hall : fs.flatMap members ≠ [] ∧ .several (fs.flatMap members) = f := by
    simpa [join?, Option.ite_none_left_eq_some] using h
  rw [← hall.2]
  exact rearranged_flatMap_members [] fs

/-! ## The exit status -/

/-- The exit status of what ended in a failure, or in none. -/
def status : Option Failure → Nat
  | none => success
  | some f => f.exitStatus

/-- The command exits with the status of the failure that its work ended in. -/
theorem status_outcome (w : Cli.Work) (verbosity : Log.Level) :
    (w.outcome verbosity).status = status w.failure := by
  unfold Cli.Work.outcome
  cases hfailure : w.failure with
  | none => simp [status, hfailure]
  | some f => simp [status, hfailure, Cli.Work.logged]

/-- The exit status depends only on which kinds of cause occur. Without a failure it is 0. With one
it is 65 if something is wrong with the source, wherever in the failure that stands, else 70 if a
run went wrong, else 64 if the settings are bad, else 74 if a file could not be used, and else 64.
So it is the same however the causes are put together: with or without context, nested or
flattened, in any order, and however often. Putting failures together gives none only if there is
nothing in them, and otherwise one with the status of the several failures. The command exits with
this status. -/
theorem status_by_kinds :
    status none = 0 ∧
    (∀ f, status (some f) =
      if Occurs .source f then 65
      else if Occurs .run f then 70
      else if Occurs .settings f then 64
      else if Occurs .file f then 74
      else 64) ∧
    (∀ f g, Rearranged f g → status (some f) = status (some g)) ∧
    (∀ fs, (join? fs = none ↔ ∀ f ∈ fs, f = .several []) ∧
      ∀ f, join? fs = some f → status (some f) = status (some (.several fs))) ∧
    ∀ (w : Cli.Work) (verbosity : Log.Level), (w.outcome verbosity).status = status w.failure := by
  have hsame : ∀ f g, Rearranged f g → status (some f) = status (some g) :=
    fun f g h => exitStatus_congr h.occurs_iff
  refine ⟨rfl, exitStatus_eq, hsame, fun fs => ⟨join?_eq_none_iff, ?_⟩, status_outcome⟩
  intro f h
  exact hsame f _ (rearranged_of_join? h).symm

/-- A run that went wrong behind some context, beside a file that is reported twice. -/
def tangled : Failure :=
  .several [.context "cannot run" (.several [.file "open f", .context "run" (.runtime 3 0 "+")]),
    .settings "a.toml" "bad", .file "open f"]

/-- The causes of `tangled`, each of them once and in another order. -/
def disentangled : Failure :=
  .several [.runtime 3 0 "+", .settings "a.toml" "bad", .file "open f"]

/-- The two are put together from the same causes. -/
theorem rearranged_tangled : Rearranged tangled disentangled := by
  have hopen : Rearranged tangled (.several [.file "open f", .context "run" (.runtime 3 0 "+"),
      .settings "a.toml" "bad", .file "open f"]) :=
    .trans (.among [] _ (.unwrapped _ _)) (.flattened [] _ _)
  have hbare : Rearranged tangled (.several [.file "open f", .runtime 3 0 "+",
      .settings "a.toml" "bad", .file "open f"]) :=
    hopen.trans (.among [.file "open f"] _ (.unwrapped _ _))
  have hlast := List.perm_append_singleton (file "open f")
    [runtime 3 0 "+", settings "a.toml" "bad"]
  have htwice := hbare.trans (.reordered (hlast.cons (file "open f")))
  have honce := htwice.trans (.repeated _ _)
  exact honce.trans (.reordered hlast.symm)

/-- In both a run went wrong, and that decides. -/
theorem status_by_kinds_tangled : Rearranged tangled disentangled ∧
    status (some tangled) = 70 ∧ status (some disentangled) = 70 := by
  obtain ⟨-, hkinds, hsame, -⟩ := status_by_kinds
  have htangled : status (some tangled) = 70 := by
    rw [hkinds]
    decide
  exact ⟨rearranged_tangled, htangled, (hsame _ _ rearranged_tangled).symm.trans htangled⟩

end Lox.Failure
