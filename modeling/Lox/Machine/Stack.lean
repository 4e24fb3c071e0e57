import Lox.Value

/-!
# The operand stack

A stack of values that knows its height. The height is bound to the values by a field of the
type, so asking for it costs nothing and it is never wrong.
-/

namespace Lox

/-- A stack of values, its top first. -/
structure Stack where
  values : List Value
  height : Nat
  height_eq : height = values.length

namespace Stack

/-- The stack with nothing on it. -/
def empty : Stack :=
  ⟨[], 0, rfl⟩

/-- A stack with a value put on top. -/
def push (s : Stack) (v : Value) : Stack :=
  ⟨v :: s.values, s.height + 1, by simp [s.height_eq]⟩

/-- The top and what lies below it. -/
def pop? (s : Stack) : Option (Value × Stack) :=
  match h : s.values with
  | [] => none
  | v :: below => some (v, ⟨below, s.height - 1, by simp [s.height_eq, h]⟩)

/-- The value below the top, the top, and what lies below both. -/
def popTwo? (s : Stack) : Option (Value × Value × Stack) :=
  match h : s.values with
  | right :: left :: below =>
    some (left, right, ⟨below, s.height - 2, by simp [s.height_eq, h]⟩)
  | _ => none

/-- The top. -/
def top? (s : Stack) : Option Value :=
  s.values.head?

/-- A stack is given by its values. -/
@[ext] theorem ext_values {s t : Stack} (h : s.values = t.values) : s = t := by
  obtain ⟨vs, n, hn⟩ := s
  obtain ⟨ws, m, hm⟩ := t
  simp only at h
  subst h hn hm
  rfl

@[simp] theorem values_empty : empty.values = [] := rfl

/-- The value pushed last comes first. -/
@[simp] theorem values_push (s : Stack) (v : Value) : (s.push v).values = v :: s.values := rfl

/-- A push raises the stack by one value. -/
@[simp] theorem height_push (s : Stack) (v : Value) : (s.push v).height = s.height + 1 := rfl

/-- What was pushed is popped, and the stack is as before. -/
@[simp] theorem pop?_push (s : Stack) (v : Value) : (s.push v).pop? = some (v, s) := rfl

/-- Two values that were pushed are popped in the order of the pushes. -/
@[simp] theorem popTwo?_push (s : Stack) (v w : Value) :
    ((s.push v).push w).popTwo? = some (v, w, s) := rfl

/-- The value pushed last is on top. -/
@[simp] theorem top?_push (s : Stack) (v : Value) : (s.push v).top? = some v := rfl

end Stack

end Lox
