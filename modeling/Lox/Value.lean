import Lox.Decimal.Number
import Lox.Text.Quoted

/-!
# Values

A value is `nil`, a boolean, a number or a string of bytes. Operations that need operands of a
given type are partial and answer `none` on any other; equality and truth are total. Numbers
compare as IEEE doubles do, so a NaN differs from itself and the two zeros are equal. Values of
different types are never equal.
-/

namespace Lox

/-- A value. -/
inductive Value where
  | nil
  | bool (b : Bool)
  | number (x : Float)
  | text (bytes : Bytes)
  deriving DecidableEq

instance : Inhabited Value := ⟨.nil⟩

namespace Value

/-- The name of a value's type, as diagnostics give it. -/
def typeName : Value → String
  | nil => "nil"
  | bool _ => "boolean"
  | number _ => "number"
  | text _ => "string"

/-- The readable form of a value, with strings in quotes. -/
def readable : Value → String
  | nil => "nil"
  | bool b => if b then "true" else "false"
  | number x => Number.text x
  | text bytes => Text.quoted bytes

/-- What printing a value writes, before the newline: the bytes of a string as they are, and
the readable form of anything else. -/
def printed : Value → Bytes
  | text bytes => bytes
  | v => Utf8.ofString v.readable

/-- Everything but `nil` and `false` counts as true. -/
def isTruthy : Value → Bool
  | nil => false
  | bool b => b
  | _ => true

/-- Equality as the language has it. -/
def equals : Value → Value → Bool
  | nil, nil => true
  | bool a, bool b => a == b
  | number x, number y => x == y
  | text s, text t => s == t
  | _, _ => false

/-- The negative of a number. -/
def negate? : Value → Option Value
  | number x => some (number (-x))
  | _ => none

/-- The sum of two numbers, or one string after another. -/
def add? : Value → Value → Option Value
  | number x, number y => some (number (x + y))
  | text s, text t => some (text (s ++ t))
  | _, _ => none

/-- The difference of two numbers. -/
def sub? : Value → Value → Option Value
  | number x, number y => some (number (x - y))
  | _, _ => none

/-- The product of two numbers. -/
def mul? : Value → Value → Option Value
  | number x, number y => some (number (x * y))
  | _, _ => none

/-- The quotient of two numbers; a zero divisor gives an infinity or NaN. -/
def div? : Value → Value → Option Value
  | number x, number y => some (number (x / y))
  | _, _ => none

/-- Whether the first of two numbers is the greater. -/
def greater? : Value → Value → Option Value
  | number x, number y => some (bool (x > y))
  | _, _ => none

/-- Whether the first of two numbers is the less. -/
def less? : Value → Value → Option Value
  | number x, number y => some (bool (x < y))
  | _, _ => none

/-- Whether a value is a number equal to zero, of either sign. -/
def isZero : Value → Bool
  | number x => x == 0
  | _ => false

/-- Whether a value is a number. -/
def isNumber : Value → Bool
  | number _ => true
  | _ => false

end Value

end Lox
