import Lox.Machine.Run
import Mathlib.Tactic.Common

/-!
# What instructions do to the stack

Instructions are built from three forms: `pushing` adds a value, `taking` removes one, and
`combining` puts one in the place of two. Each form has one lemma that says all it can come to, so
that nothing below unfolds them again.

An opcode `needs` some operands and `leaves` some values in their place. `Performed` lists what
executing an instruction can come to in these terms, with the heights of the stack before and after,
and `performed` says that the list is complete. Facts about runs are read off it by cases.
-/

namespace Lox

namespace Stack

/-- A value is popped just when it was pushed last. -/
theorem pop?_eq_some_iff {s below : Stack} {v : Value} :
    s.pop? = some (v, below) ↔ s = below.push v := by
  constructor
  · intro h
    unfold pop? at h
    split at h
    · cases h
    · rename_i w ws hvalues
      obtain ⟨rfl, rfl⟩ := Prod.mk.inj (Option.some.inj h)
      exact ext_values (by simp [hvalues])
  · rintro rfl
    exact pop?_push below v

/-- Nothing is popped just when the stack is empty. -/
theorem pop?_eq_none_iff {s : Stack} : s.pop? = none ↔ s.height = 0 := by
  unfold pop?
  split <;> rename_i h <;> simp [s.height_eq, h]

/-- Two values are popped just when they were pushed last, in their order. -/
theorem popTwo?_eq_some_iff {s below : Stack} {v w : Value} :
    s.popTwo? = some (v, w, below) ↔ s = (below.push v).push w := by
  constructor
  · intro h
    unfold popTwo? at h
    split at h
    · rename_i right left rest hvalues
      simp only [Option.some.injEq, Prod.mk.injEq] at h
      obtain ⟨rfl, rfl, rfl⟩ := h
      exact ext_values (by simp [hvalues])
    · cases h
  · rintro rfl
    exact popTwo?_push below v w

/-- Two values are not popped just when there are fewer. -/
theorem popTwo?_eq_none_iff {s : Stack} : s.popTwo? = none ↔ s.height < 2 := by
  unfold popTwo?
  split
  · rename_i h
    simp [s.height_eq, h]
  · rename_i h
    rw [s.height_eq]
    rcases hvalues : s.values with _ | ⟨v, _ | ⟨w, ws⟩⟩
    · simp
    · simp
    · exact absurd hvalues (h _ _ _)

end Stack

namespace Machine

variable {κ : Type} {o : Options} {s : Stack} {k : κ} {op : Opcode}

/-! ## The three forms -/

/-- All that a push can come to: it overflows, or there was room for the value. -/
theorem pushing_cases (o : Options) (s : Stack) (k : κ) (v : Value) :
    (o.limit ≤ s.height ∧ pushing o s k v = .error (.overflow o.limit)) ∨
      ((s.height : Int) < o.limit ∧ pushing o s k v = .ok (.next (s.push v) k)) := by
  unfold pushing push
  by_cases h : o.limit ≤ s.height
  · exact .inl ⟨h, by rw [if_pos h]; rfl⟩
  · exact .inr ⟨by omega, by rw [if_neg h]; rfl⟩

/-- Below the limit there is room for a value. -/
theorem pushing_of_lt (h : (s.height : Int) < o.limit) (v : Value) :
    pushing o s k v = .ok (.next (s.push v) k) := by
  rcases pushing_cases o s k v with ⟨hge, -⟩ | ⟨-, hok⟩
  · omega
  · exact hok

/-- At the limit a push overflows. -/
theorem pushing_of_le (h : o.limit ≤ s.height) (v : Value) :
    pushing o s k v = .error (.overflow o.limit) := by
  rcases pushing_cases o s k v with ⟨-, herror⟩ | ⟨hlt, -⟩
  · exact herror
  · omega

/-- All that taking a value can come to: it underflows, or there was a value. -/
theorem taking_cases (op : Opcode) (s : Stack) (f : Value → Stack → Except Trap (Effect κ)) :
    (s.height = 0 ∧ taking op s f = .error (.underflow op 1 0)) ∨
      ∃ v below, s = below.push v ∧ taking op s f = f v below := by
  unfold taking
  split
  · rename_i h
    have hzero := Stack.pop?_eq_none_iff.mp h
    exact .inl ⟨hzero, by rw [hzero]⟩
  · rename_i v below h
    exact .inr ⟨v, below, Stack.pop?_eq_some_iff.mp h, rfl⟩

/-- From a stack that a value was pushed on, that value is taken. -/
@[simp] theorem taking_push (op : Opcode) (s : Stack) (v : Value)
    (f : Value → Stack → Except Trap (Effect κ)) : taking op (s.push v) f = f v s := rfl

/-- All that combining two values can come to: it underflows, the operation traps, or its value is
pushed. -/
theorem combining_cases (o : Options) (op : Opcode) (s : Stack) (k : κ)
    (f : Value → Value → Except Trap Value) :
    (s.height < 2 ∧ combining o op s k f = .error (.underflow op 2 s.height)) ∨
      ∃ v w below, s = (below.push v).push w ∧
        ((∃ t, f v w = .error t ∧ combining o op s k f = .error t) ∨
          ∃ u, f v w = .ok u ∧ combining o op s k f = pushing o below k u) := by
  unfold combining
  split
  · rename_i h
    exact .inl ⟨Stack.popTwo?_eq_none_iff.mp h, rfl⟩
  · rename_i v w below h
    refine .inr ⟨v, w, below, Stack.popTwo?_eq_some_iff.mp h, ?_⟩
    cases hf : f v w with
    | error t => exact .inl ⟨t, rfl, rfl⟩
    | ok u => exact .inr ⟨u, rfl, rfl⟩

/-- Two values that were pushed are combined in their order. -/
theorem combining_push (o : Options) (op : Opcode) (s : Stack) (k : κ) (v w : Value)
    (f : Value → Value → Except Trap Value) :
    combining o op ((s.push v).push w) k f = (f v w).bind (pushing o s k) := rfl

/-! ## All that an instruction can come to -/

end Machine

namespace Opcode

/-- The number of operands that an instruction takes from the stack. -/
def needs : Opcode → Nat
  | const | pushNil | pushTrue | pushFalse | jump => 0
  | ret | pop | not | negate | print | jumpIfFalse => 1
  | equal | greater | less | add | sub | mul | div => 2

/-- The number of values that an instruction leaves in the place of its operands. -/
def leaves : Opcode → Nat
  | ret | pop | print | jump => 0
  | _ => 1

end Opcode

namespace Machine

/-- What executing an instruction on a stack can come to. -/
inductive Performed (o : Options) (consts : List Value) (i : Instr) (s : Stack) :
    Except Trap (Effect κ) → Prop where
  /-- There are too few operands. -/
  | underflow : s.height < i.op.needs →
      Performed o consts i s (.error (.underflow i.op i.op.needs s.height))
  /-- There is no room for the result. -/
  | overflow : i.op.needs ≤ s.height → i.op.leaves = 1 → o.limit + i.op.needs ≤ s.height →
      Performed o consts i s (.error (.overflow o.limit))
  /-- The constant does not exist. -/
  | constant : i.op = .const → consts.length ≤ i.operand →
      Performed o consts i s (.error (.constant i.operand))
  /-- The operands do not suit the operation. -/
  | unsuited (t : Trap) : i.op.needs ≤ s.height → 0 < i.op.needs →
      t.fault = .typeMismatch ∨ t.fault = .divisionByZero → Performed o consts i s (.error t)
  /-- The operands are replaced, and a push is within the limit. -/
  | next (t : Stack) (k : κ) : i.op.needs ≤ s.height →
      t.height + i.op.needs = s.height + i.op.leaves → (i.op.needs = 0 → t.height ≤ o.limit) →
      Performed o consts i s (.ok (.next t k))
  /-- A jump is taken. -/
  | leap : i.op = .jump ∨ i.op = .jumpIfFalse → i.op.needs ≤ s.height →
      Performed o consts i s (.ok (.leap s))
  /-- The run returns. -/
  | done (v : Value) : i.op = .ret → i.op.needs ≤ s.height → Performed o consts i s (.ok (.done v))
  /-- A write fails. -/
  | refused (k : κ) (reason : String) : i.op = .print → i.op.needs ≤ s.height →
      Performed o consts i s (.ok (.refused k reason))

variable {consts : List Value} {i : Instr}

/-- A push in the place of the operands is among what an instruction with one result can come to. -/
theorem performed_pushing {below : Stack} (hneeds : below.height + i.op.needs = s.height)
    (hleaves : i.op.leaves = 1) (v : Value) :
    Performed o consts i s (pushing o below k v) := by
  rcases pushing_cases o below k v with ⟨hge, heq⟩ | ⟨hlt, heq⟩ <;> rw [heq]
  · exact .overflow (by omega) hleaves (by omega)
  · have hheight := Stack.height_push below v
    exact .next _ _ (by omega) (by omega) (fun _ => by omega)

/-- Combining two operands is among what an instruction can come to, if the operation has no other
faults than those of an operator. -/
theorem performed_combining (hneeds : i.op.needs = 2) (hleaves : i.op.leaves = 1)
    {f : Value → Value → Except Trap Value}
    (hf : ∀ v w t, f v w = .error t → t.fault = .typeMismatch ∨ t.fault = .divisionByZero) :
    Performed o consts i s (combining o i.op s k f) := by
  rcases combining_cases o i.op s k f with
    ⟨hlt, heq⟩ | ⟨v, w, below, rfl, ⟨t, ht, heq⟩ | ⟨u, -, heq⟩⟩
  · rw [heq, ← hneeds]
    exact .underflow (by omega)
  · rw [heq]
    exact .unsuited t (by simp only [Stack.height_push]; omega) (by omega) (hf v w t ht)
  · rw [heq]
    exact performed_pushing (by simp only [Stack.height_push]; omega) hleaves u

/-- Taking an operand is among what an instruction can come to, if what is done with the operand is.
-/
theorem performed_taking (hneeds : i.op.needs = 1) {f : Value → Stack → Except Trap (Effect κ)}
    (hf : ∀ v below, s = below.push v → Performed o consts i s (f v below)) :
    Performed o consts i s (taking i.op s f) := by
  rcases taking_cases i.op s f with ⟨hzero, heq⟩ | ⟨v, below, hs, heq⟩
  · rw [heq, ← hneeds, ← hzero]
    exact .underflow (by omega)
  · rw [heq]
    exact hf v below hs

/-- An operator on numbers can only find operands of the wrong type. -/
theorem fault_of_numeric {f : Value → Value → Option Value} {v w : Value} {t : Trap}
    (h : numeric f v w = .error t) : t.fault = .typeMismatch := by
  unfold numeric at h
  split at h <;> cases h
  rfl

/-- A sum can only find operands of the wrong type. -/
theorem fault_of_sum {v w : Value} {t : Trap} (h : sum v w = .error t) :
    t.fault = .typeMismatch := by
  unfold sum at h
  split at h <;> cases h
  rfl

/-- A quotient can find operands of the wrong type, or a zero to divide by. -/
theorem fault_of_quotient {v w : Value} {t : Trap} (h : quotient o v w = .error t) :
    t.fault = .typeMismatch ∨ t.fault = .divisionByZero := by
  unfold quotient at h
  split at h
  · cases h
    exact .inr rfl
  · exact .inl (fault_of_numeric h)

variable [Sink κ]

/-- The list of what an instruction can come to is complete. -/
theorem performed (o : Options) (consts : List Value) (i : Instr) (s : Stack) (k : κ) :
    Performed o consts i s (perform o consts i s k) := by
  obtain ⟨op, operand⟩ := i
  unfold perform
  cases op
  case const =>
    dsimp only
    split
    · rename_i h
      exact .constant rfl (by simpa using h)
    · exact performed_pushing rfl rfl _
  case pushNil | pushTrue | pushFalse => exact performed_pushing rfl rfl _
  case equal => exact performed_combining rfl rfl fun _ _ _ h => by cases h
  case greater | less | sub | mul =>
    exact performed_combining rfl rfl fun _ _ _ h => .inl (fault_of_numeric h)
  case add => exact performed_combining rfl rfl fun _ _ _ h => .inl (fault_of_sum h)
  case div => exact performed_combining rfl rfl fun _ _ _ h => fault_of_quotient h
  case jump => exact .leap (.inl rfl) (Nat.zero_le _)
  -- the rest take one operand off
  all_goals
    refine performed_taking rfl ?_
    rintro v below rfl
    have hneeds : 1 ≤ (below.push v).height := by simp
  case ret => exact .done v rfl hneeds
  case pop => exact .next _ _ hneeds rfl nofun
  case not => exact performed_pushing rfl rfl _
  case negate =>
    split
    · exact .unsuited _ hneeds Nat.one_pos (.inl rfl)
    · exact performed_pushing rfl rfl _
  case print =>
    split
    · exact .next _ _ hneeds rfl nofun
    · exact .refused _ _ rfl hneeds
  case jumpIfFalse =>
    split
    · exact .next _ _ hneeds rfl nofun
    · exact .leap (.inr rfl) hneeds

end Machine

end Lox
