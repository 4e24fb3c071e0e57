/-!
# Machine integers and narrowing

A machine integer type is a width in bits and a choice of signed or unsigned. Converting an
integer to such a type keeps its residue modulo `2 ^ width`. Narrowing converts and reports
whether the value survived: it did when converting back gives the value again and the sign is
the same.
-/

namespace Lox

/-- A machine integer type. -/
structure IntType where
  signed : Bool
  width : Nat
  deriving DecidableEq, Repr

namespace IntType

/-- The least integer of a type. -/
def least (t : IntType) : Int :=
  if t.signed then -(Nat.pow 2 (t.width - 1) : Int) else 0

/-- The greatest integer of a type. -/
def greatest (t : IntType) : Int :=
  if t.signed then (Nat.pow 2 (t.width - 1) : Int) - 1 else (Nat.pow 2 t.width : Int) - 1

/-- Whether an integer belongs to a type. -/
def contains (t : IntType) (i : Int) : Bool :=
  t.least ≤ i && i ≤ t.greatest

/-- The integer of the type with the same residue modulo `2 ^ width`. -/
def wrap (t : IntType) (i : Int) : Int :=
  if t.signed then i.bmod (Nat.pow 2 t.width) else i % (Nat.pow 2 t.width : Int)

/-- Converts an integer of type `source` to type `target`, and says whether it survived. -/
def narrow (source target : IntType) (i : Int) : Int × Bool :=
  let n := target.wrap i
  (n, source.wrap n = i && decide (n < 0) = decide (i < 0))

end IntType

end Lox
