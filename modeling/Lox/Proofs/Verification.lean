import Lox.Chunk.Verify
import Lox.Image.Chunk
import Lox.Proofs.Effects
import Lox.Proofs.Steps

/-!
# What verification is worth

Verification walks over the code from its start, one instruction after another, and checks each
(`Chunk.Checked` are the offsets it comes to). A run follows jumps instead, and of a jump only
its distance is checked: it must not lead past the end. So a jump of a verified chunk may land
within an instruction, where the bytes mean something else and nothing was checked
(`verified_run_truncated` is such a chunk).

`verified_run` says how far the check reaches. Each instruction that a run executes is one that was
checked, until the run takes a jump from a checked instruction to an offset that was not. Only after
such a jump can it meet an unknown byte, a truncated operand or a constant that does not exist.
When all jumps land on checked offsets or at the end, there is none.
-/

namespace Lox

namespace Chunk

/-- The offsets at which verification looks at an instruction. -/
inductive Checked (c : Chunk) : Nat → Prop where
  | start : 0 < c.size → Checked c 0
  | next {n : Nat} {i : Instr} : Checked c n → c.fetchAt? n = some (.whole i) →
      n + i.size < c.size → Checked c (n + i.size)

/-- The first defect from an offset on. -/
def defectFrom? (c : Chunk) (n : Nat) : Option Defect :=
  codeDefect? c.consts.length c.size 0 n (c.code.drop n)

/-- To skip bytes is to look for defects after them. -/
theorem codeDefect?_skip (count size skip offset : Nat) (bs : Bytes) :
    codeDefect? count size skip offset bs =
      codeDefect? count size 0 (offset + skip) (bs.drop skip) := by
  induction skip generalizing offset bs with
  | zero => rfl
  | succ skip ih =>
    cases bs with
    | nil => simp [codeDefect?]
    | cons b rest =>
      rw [codeDefect?, ih, List.drop_succ_cons]
      congr 1
      omega

/-- At a whole instruction the first defect is its own, or else the first after it. -/
theorem defectFrom?_of_whole {c : Chunk} {n : Nat} {i : Instr}
    (h : c.fetchAt? n = some (.whole i)) :
    c.defectFrom? n =
      match instrDefect? c.consts.length c.size n i with
      | some d => some d
      | none => c.defectFrom? (n + i.size) := by
  unfold fetchAt? at h
  split at h
  · cases h
  · rename_i b rest hdrop
    have hoffset : n + 1 + i.op.width = n + i.size := by
      simp only [Instr.size]
      omega
    have hrest : rest.drop i.op.width = c.code.drop (n + i.size) := by
      rw [← hoffset, ← List.drop_drop, ← List.drop_drop, hdrop, List.drop_one, List.tail_cons]
    rw [defectFrom?, hdrop, codeDefect?, Option.some.inj h]
    dsimp only
    rw [codeDefect?_skip, hoffset, hrest]
    rfl

/-- Where no defect is found there is a whole instruction without one, and none after it. -/
theorem sound_of_defectFrom? {c : Chunk} {n : Nat} (h : c.defectFrom? n = none) (hn : n < c.size) :
    ∃ i, c.fetchAt? n = some (.whole i) ∧ instrDefect? c.consts.length c.size n i = none ∧
      c.defectFrom? (n + i.size) = none := by
  have hdrop : c.code.drop n = c.code[n] :: c.code.drop (n + 1) := List.drop_eq_getElem_cons hn
  have hat : c.fetchAt? n = some (fetch c.code[n] (c.code.drop (n + 1))) := by
    rw [fetchAt?, hdrop]
  cases hfetch : fetch c.code[n] (c.code.drop (n + 1)) with
  | unknown b =>
    rw [defectFrom?, hdrop, codeDefect?, hfetch] at h
    cases h
  | truncated op =>
    rw [defectFrom?, hdrop, codeDefect?, hfetch] at h
    cases h
  | whole i =>
    rw [hfetch] at hat
    rw [defectFrom?_of_whole hat] at h
    cases hdefect : instrDefect? c.consts.length c.size n i with
    | some d =>
      rw [hdefect] at h
      cases h
    | none =>
      rw [hdefect] at h
      exact ⟨i, hat, hdefect, h⟩

/-- Verification finds no defect from any offset that it checks. -/
theorem defectFrom?_of_checked {c : Chunk} (h : c.defect? = none) {n : Nat} (hn : c.Checked n) :
    c.defectFrom? n = none ∧ n < c.size := by
  induction hn with
  | start hsize =>
    unfold defect? at h
    split at h
    · cases h
    · exact ⟨h, hsize⟩
  | next _ hfetch hend ih =>
    obtain ⟨j, hj, -, hrest⟩ := sound_of_defectFrom? ih.1 ih.2
    obtain rfl : _ = j := by simpa using hfetch.symm.trans hj
    exact ⟨hrest, hend⟩

/-- At an offset that verification checks there is a whole instruction without a defect. -/
theorem sound_of_checked {c : Chunk} (h : c.defect? = none) {n : Nat} (hn : c.Checked n) :
    ∃ i, c.fetchAt? n = some (.whole i) ∧ instrDefect? c.consts.length c.size n i = none := by
  obtain ⟨hdefect, hlt⟩ := defectFrom?_of_checked h hn
  obtain ⟨i, hi, hsound, -⟩ := sound_of_defectFrom? hdefect hlt
  exact ⟨i, hi, hsound⟩

/-- A chunk that was loaded has passed verification. -/
theorem defect?_of_load {bs : Bytes} {c : Chunk} (h : Chunk.load bs = .ok c) :
    c.defect? = none := by
  unfold load at h
  cases hm : (Image.ofBytes bs).mapError Image.LoadError.unreadable with
  | error e =>
    rw [hm] at h
    cases h
  | ok m =>
    rw [hm] at h
    change m.toChunk = .ok c at h
    unfold Image.toChunk at h
    by_cases hversion : m.version = Image.currentVersion
    · cases hvalues : Image.values 0 m.consts [] with
      | error e => simp [hversion, hvalues, bind, Except.bind] at h
      | ok vs =>
        simp only [hversion, ne_eq, not_true_eq_false, if_false, hvalues, bind, Except.bind] at h
        split at h
        · cases h
        · rename_i hdefect
          cases h
          exact hdefect
    · simp [hversion, bind, Except.bind] at h

/-- All jumps of checked instructions land on checked offsets, or leave the code. -/
def Aligned (c : Chunk) : Prop :=
  ∀ n i, c.Checked n → c.fetchAt? n = some (.whole i) → i.op = .jump ∨ i.op = .jumpIfFalse →
    c.Checked (n + i.size + i.operand) ∨ c.size ≤ n + i.size + i.operand

end Chunk

namespace Machine

variable {κ : Type} [Sink κ] {o : Options} {c : Chunk} {k : κ} {s : State κ}

/-- A run goes astray by the offset `n`: it takes a jump from a checked instruction to an offset, up
to `n`, that was not checked. -/
def Strays (o : Options) (c : Chunk) (k : κ) (n : Nat) : Prop :=
  ∃ u v i, Reachable o c k u ∧ c.Checked u.offset ∧ c.fetchAt? u.offset = some (.whole i) ∧
    (i.op = .jump ∨ i.op = .jumpIfFalse) ∧ turn o c u = .go v ∧
    v.offset = u.offset + i.size + i.operand ∧ v.offset < c.size ∧ v.offset ≤ n ∧
    ¬c.Checked v.offset

/-- A run that goes astray by some offset does so by every later one. -/
theorem Strays.mono {n m : Nat} (h : Strays o c k n) (hnm : n ≤ m) : Strays o c k m := by
  obtain ⟨u, v, i, hu, hchecked, hfetch, hop, hturn, hv, hsize, hn, hnot⟩ := h
  exact ⟨u, v, i, hu, hchecked, hfetch, hop, hturn, hv, hsize, Nat.le_trans hn hnm, hnot⟩

/-- Where all jumps are aligned, no run goes astray. -/
theorem not_strays_of_aligned (h : c.Aligned) (n : Nat) : ¬Strays o c k n := by
  rintro ⟨u, v, i, -, hchecked, hfetch, hop, -, hv, hsize, -, hnot⟩
  rcases h u.offset i hchecked hfetch hop with htarget | htarget
  · exact hnot (hv ▸ htarget)
  · omega

/-- Every instruction that a run executes was checked, unless the run has gone astray by then. -/
theorem checked_of_reachable (h : Reachable o c k s) (hs : s.offset < c.size) :
    c.Checked s.offset ∨ Strays o c k s.offset := by
  induction h with
  | start => exact .inl (.start hs)
  | @turn s t hreach hturn ih =>
    have hlt := offset_lt_of_go hturn
    rcases ih hlt.2 with hchecked | hstrays
    · obtain ⟨i, hfetch, ⟨-, hoffset⟩ | ⟨hperform, hoffset, -⟩⟩ := turn_eq_go hturn
      · rw [hoffset] at hs ⊢
        exact .inl (hchecked.next hfetch hs)
      · have hop : i.op = .jump ∨ i.op = .jumpIfFalse := by
          have hperformed := performed o c.consts i s.stack s.console
          rw [hperform] at hperformed
          generalize t.stack = stack at hperformed
          cases hperformed with
          | leap hop _ => exact hop
        by_cases htarget : c.Checked t.offset
        · exact .inl htarget
        · exact .inr ⟨s, t, i, hreach, hchecked, hfetch, hop, hturn, hoffset, hs, Nat.le_refl _,
            htarget⟩
    · exact .inr (hstrays.mono (Nat.le_of_lt hlt.1))

/-- At a checked offset of a verified chunk no bad instruction is met. -/
theorem fault_of_checked (h : c.defect? = none) (hs : c.Checked s.offset) {e : RuntimeError}
    {k' : κ}
    (hturn : turn o c s = .stop (.error (.fault e)) k') : e.trap.fault ≠ .badInstruction := by
  obtain ⟨i, hfetch, hsound⟩ := Chunk.sound_of_checked h hs
  rcases turn_eq_fault hturn with ⟨hf, -⟩ | ⟨-, ⟨b, hf, -⟩ | ⟨op, hf, -⟩ | ⟨j, hf, hperform⟩⟩
  · simp [hf] at hfetch
  · simp [hf] at hfetch
  · simp [hf] at hfetch
  · obtain rfl : i = j := by simpa using hfetch.symm.trans hf
    have hperformed := performed o c.consts i s.stack s.console
    rw [hperform] at hperformed
    generalize e.trap = trap at hperformed
    cases hperformed with
    | underflow => simp [Trap.fault]
    | overflow => simp [Trap.fault]
    | unsuited _ _ _ hfault => rcases hfault with hfault | hfault <;> simp [hfault]
    | constant hop hindex =>
      -- this is what verification looks for
      simp [Chunk.instrDefect?, hop, hindex] at hsound

/-- A bad instruction in a run of a verified chunk is the end of the code, unless the run has gone
astray. -/
theorem trap_of_badInstruction (h : c.defect? = none) {e : RuntimeError}
    (he : (run o c k).result = .error (.fault e)) (hfault : e.trap.fault = .badInstruction) :
    e.trap = .pastEnd ∨ Strays o c k c.size := by
  obtain ⟨s, hreach, hturn⟩ := exists_last_turn o c k
  rw [he] at hturn
  by_cases hs : s.offset < c.size
  · rcases checked_of_reachable hreach hs with hchecked | hstrays
    · exact absurd hfault (fault_of_checked h hchecked hturn)
    · exact .inr (hstrays.mono (Nat.le_of_lt hs))
  · left
    have hend := Chunk.fetchAt?_eq_none_iff.mpr (Nat.le_of_not_lt hs)
    rcases turn_eq_fault hturn with ⟨-, rfl⟩ | ⟨-, ⟨b, hf, -⟩ | ⟨op, hf, -⟩ | ⟨i, hf, -⟩⟩
    · rfl
    all_goals simp [hend] at hf

/-- How far verification reaches. A run of a verified chunk, or of one that was loaded, executes
checked instructions until it jumps from one of them to an offset that was not checked, and only
then can it meet a bad instruction before the end. Where all jumps are aligned it never does. -/
theorem verified_run (h : c.defect? = none ∨ ∃ bs, Chunk.load bs = .ok c) (o : Options) (k : κ) :
    (∀ s, Reachable o c k s → s.offset < c.size →
      c.Checked s.offset ∨ Strays o c k s.offset) ∧
    (∀ e, (run o c k).result = .error (.fault e) → e.trap.fault = .badInstruction →
      e.trap = .pastEnd ∨ Strays o c k c.size) ∧
    (c.Aligned → (∀ s, Reachable o c k s → s.offset < c.size → c.Checked s.offset) ∧
      ∀ e, (run o c k).result = .error (.fault e) → e.trap.fault = .badInstruction →
        e.trap = .pastEnd) := by
  have hdefect : c.defect? = none := by
    rcases h with h | ⟨bs, h⟩
    · exact h
    · exact Chunk.defect?_of_load h
  refine ⟨fun s => checked_of_reachable, fun e => trap_of_badInstruction hdefect,
    fun haligned => ?_⟩
  refine ⟨fun s hreach hs => ?_, fun e he hfault => ?_⟩
  · exact (checked_of_reachable hreach hs).resolve_right (not_strays_of_aligned haligned _)
  · exact (trap_of_badInstruction hdefect he hfault).resolve_right
      (not_strays_of_aligned haligned _)

/-- Code whose jump lands on the operand of the instruction after it. -/
def wildJump : Chunk :=
  ((Chunk.empty.addConst .nil).addConst .nil).write [16, 0, 1, 1, 1] 1

/-- A verified chunk can meet a truncated operand. -/
theorem verified_run_truncated : wildJump.defect? = none ∧
    (run {} wildJump ({} : Console)).result = .error (.fault ⟨.truncated .const, 1⟩) :=
  ⟨rfl, rfl⟩

/-- In that chunk the bad instruction is met because the run goes astray. -/
theorem verified_run_wildJump : wildJump.defect? = none ∧
    ((Trap.truncated .const = .pastEnd) ∨ Strays {} wildJump ({} : Console) wildJump.size) :=
  ⟨rfl, (verified_run (c := wildJump) (.inl rfl) {} ({} : Console)).2.1 _ rfl rfl⟩

end Machine

end Lox
