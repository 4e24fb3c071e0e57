import Lox.Decimal.Number

/-!
# Scalars of a settings file

A TOML file holds texts, truth values, integers, floating-point numbers, dates and times. This
module tells which words are scalars. Only integers, truth values and texts are kept with their
values; of the others it is enough to know that they are well formed.
-/

namespace Lox.Toml

/-- A value without parts. -/
inductive Scalar where
  | text (s : String)
  | integer (i : Int)
  | boolean (b : Bool)
  | float
  | moment
  deriving DecidableEq, Repr

/-- A decimal digit. -/
def isDigit (c : Char) : Bool :=
  '0' ≤ c && c ≤ '9'

/-- The value of a digit in some base. -/
def digitValue? (base : Nat) (c : Char) : Option Nat :=
  let value? :=
    if isDigit c then some (c.toNat - '0'.toNat)
    else if 'a' ≤ c && c ≤ 'f' then some (c.toNat - 'a'.toNat + 10)
    else if 'A' ≤ c && c ≤ 'F' then some (c.toNat - 'A'.toNat + 10)
    else none
  value?.filter (· < base)

/-- The values of some digits. An underscore may stand between two of them. -/
def digits? (base : Nat) : List Char → Option (List Nat)
  | [] => none
  | [c] => do return [← digitValue? base c]
  | c :: '_' :: cs => do return (← digitValue? base c) :: (← digits? base cs)
  | c :: cs => do return (← digitValue? base c) :: (← digits? base cs)

/-- The number that some digits spell. -/
def ofDigits (base : Nat) (ds : List Nat) : Nat :=
  ds.foldl (fun n d => n * base + d) 0

/-- Whether some digits begin with a zero that is not alone. -/
def hasIdleZero (ds : List Nat) : Bool :=
  ds.head? = some 0 && 1 < ds.length

/-- An optional sign, and what follows it. -/
def signed : List Char → Bool × List Char
  | '-' :: cs => (true, cs)
  | '+' :: cs => (false, cs)
  | cs => (false, cs)

/-- The least and the greatest integer of a settings file: those of a signed word. -/
def fitsWord (i : Int) : Bool :=
  -(Nat.pow 2 63 : Int) ≤ i && i < (Nat.pow 2 63 : Int)

/-- The magnitude of an integer: digits in base ten, or in another base after a mark if there
is no sign. -/
def magnitude? : List Char → Option Nat
  | '0' :: 'x' :: cs => (digits? 16 cs).map (ofDigits 16)
  | '0' :: 'o' :: cs => (digits? 8 cs).map (ofDigits 8)
  | '0' :: 'b' :: cs => (digits? 2 cs).map (ofDigits 2)
  | cs => decimal? cs
where
  /-- Digits in base ten without an idle zero. -/
  decimal? (cs : List Char) : Option Nat :=
    ((digits? 10 cs).filter (!hasIdleZero ·)).map (ofDigits 10)

/-- The integer that a word is. -/
def integer? (cs : List Char) : Option Int :=
  let value? : Option Int :=
    match cs with
    | '-' :: rest => (magnitude?.decimal? rest).map fun n => -(n : Int)
    | '+' :: rest => (magnitude?.decimal? rest).map fun n => (n : Int)
    | _ => (magnitude? cs).map fun n => (n : Int)
  value?.filter fitsWord

/-- The exponent of a floating-point number. -/
def exponent? (cs : List Char) : Option Int :=
  let (negative, rest) := signed cs
  (digits? 10 rest).map fun ds =>
    let n : Int := ofDigits 10 ds
    if negative then -n else n

/-- Whether the decimal with some digits and a power of ten is within the range of a double. -/
def inRange (ds : List Nat) (e : Int) : Bool :=
  let m := ofDigits 10 ds
  let top := e + (toString m).length
  m = 0 || top < 300 || (top < 320 && !(Number.ofDecimal m e).isInf)

/-- The part of a number before an exponent mark, and the part after it, if there is one. -/
def splitExponent (cs : List Char) : List Char × Option (List Char) :=
  let isMark (c : Char) : Bool := c = 'e' || c = 'E'
  let rest := cs.dropWhile (!isMark ·)
  (cs.takeWhile (!isMark ·), if rest.isEmpty then none else some (rest.drop 1))

/-- The part of a number before the point, and the part after it, if there is one. -/
def splitPoint (cs : List Char) : List Char × Option (List Char) :=
  let rest := cs.dropWhile (· ≠ '.')
  (cs.takeWhile (· ≠ '.'), if rest.isEmpty then none else some (rest.drop 1))

/-- Whether a word is a floating-point number: a whole part, and a fraction or an exponent, or
one of the special values. -/
def isFloat (cs : List Char) : Bool :=
  let body := (signed cs).2
  if body = "inf".toList || body = "nan".toList then true
  else
    let (front, power?) := splitExponent body
    let (whole, places?) := splitPoint front
    let parts : Option (List Nat × Int) := do
      let ds ← (digits? 10 whole).filter (!hasIdleZero ·)
      let ps ← match places? with
        | some ps => digits? 10 ps
        | none => some []
      let e ← match power? with
        | some p => exponent? p
        | none => some 0
      return (ds ++ ps, e - ps.length)
    (places?.isSome || power?.isSome) &&
      match parts with
      | some (ds, e) => inRange ds e
      | none => false

/-- A field of exactly so many digits. -/
def field? (width : Nat) (cs : List Char) : Option (Nat × List Char) :=
  let front := cs.take width
  if front.length = width && front.all isDigit then
    some (ofDigits 10 (front.map fun c => c.toNat - '0'.toNat), cs.drop width)
  else none

/-- The rest of a word after a character that has to come first. -/
def after? (c : Char) : List Char → Option (List Char)
  | d :: cs => if d = c then some cs else none
  | [] => none

/-- Whether a year is a leap year. -/
def isLeap (year : Nat) : Bool :=
  year % 4 = 0 && (year % 100 ≠ 0 || year % 400 = 0)

/-- The number of days in a month. -/
def daysIn (year month : Nat) : Nat :=
  if month = 2 then if isLeap year then 29 else 28
  else if month = 4 || month = 6 || month = 9 || month = 11 then 30
  else 31

/-- What follows a date at the front of a word. -/
def date? (cs : List Char) : Option (List Char) := do
  let (year, cs) ← field? 4 cs
  let (month, cs) ← field? 2 (← after? '-' cs)
  let (day, cs) ← field? 2 (← after? '-' cs)
  if 1 ≤ month ∧ month ≤ 12 ∧ 1 ≤ day ∧ day ≤ daysIn year month then some cs else none

/-- What follows a fraction of a second, if one is there. -/
def fraction : List Char → List Char
  | '.' :: d :: cs => if isDigit d then cs.dropWhile isDigit else '.' :: d :: cs
  | cs => cs

/-- What follows the seconds of a time, if they are there. -/
def seconds? : List Char → Option (List Char)
  | ':' :: cs => do
    let (second, cs) ← field? 2 cs
    if second < 60 then some (fraction cs) else none
  | cs => some cs

/-- What follows a time of day at the front of a word. -/
def time? (cs : List Char) : Option (List Char) := do
  let (hour, cs) ← field? 2 cs
  let (minute, cs) ← field? 2 (← after? ':' cs)
  if hour < 24 ∧ minute < 60 then seconds? cs else none

/-- Whether a word is empty or the offset of a time zone. -/
def isOffset (cs : List Char) : Bool :=
  match cs with
  | [] | ['Z'] | ['z'] => true
  | sign :: cs =>
    let fields : Option (Nat × Nat × List Char) := do
      let (hours, cs) ← field? 2 cs
      let (minutes, cs) ← field? 2 (← after? ':' cs)
      return (hours, minutes, cs)
    (sign = '+' || sign = '-') &&
      match fields with
      | some (hours, minutes, rest) => hours ≤ 24 && minutes ≤ 60 && rest.isEmpty
      | none => false

/-- Whether a word is a date alone. -/
def isDate (cs : List Char) : Bool :=
  date? cs = some []

/-- Whether a word is a date, a time, or a date and a time with or without an offset. -/
def isMoment (cs : List Char) : Bool :=
  time? cs = some [] ||
    match date? cs with
    | none => false
    | some [] => true
    | some (separator :: rest) =>
      (separator = 'T' || separator = 't' || separator = ' ') &&
        match time? rest with
        | some offset => isOffset offset
        | none => false

/-- The scalar that a word without quotes is. -/
def word? (cs : List Char) : Option Scalar :=
  if cs = "true".toList then some (.boolean true)
  else if cs = "false".toList then some (.boolean false)
  else
    match integer? cs with
    | some i => some (.integer i)
    | none =>
      if isFloat cs then some .float
      else if isMoment cs then some .moment
      else none

end Lox.Toml
