import Lox.Value

/-!
# The constant pool

The constants of a program are its number and string literals, each kept once: literals that are
equal as values share a slot. An instruction names a slot by one byte, so there is room for 256
constants; one more finds no slot.
-/

namespace Lox

/-- Whether a literal's value is kept in the pool. The others have instructions of their own. -/
def Value.isPooled : Value → Bool
  | .number _ | .text _ => true
  | _ => false

/-- The constants of a program, in the order of their first occurrence. -/
abbrev Pool := List Value

namespace Pool

/-- The number of slots. -/
def capacity : Nat := 256

/-- The slot of a value. -/
def slot? (p : Pool) (v : Value) : Option Nat :=
  p.findIdx? fun w => w.equals v

/-- The pool with a literal's value in it, if it belongs there and there is room. -/
def add (p : Pool) (v : Value) : Pool :=
  if v.isPooled && (p.slot? v).isNone && p.length < capacity then p ++ [v] else p

/-- The pool with the values of some literals in it. -/
def addAll (p : Pool) (vs : List Value) : Pool :=
  vs.foldl add p

/-- Whether a literal's value belongs in the pool and found no room. -/
def lacks (p : Pool) (v : Value) : Bool :=
  v.isPooled && (p.slot? v).isNone

/-- A pool never outgrows its slots. -/
theorem length_add_le {p : Pool} (h : p.length ≤ capacity) (v : Value) :
    (p.add v).length ≤ capacity := by
  unfold add
  split
  · simp_all only [Bool.and_eq_true, decide_eq_true_eq, List.length_append, List.length_cons,
      List.length_nil]
    omega
  · exact h

end Pool

end Lox
