import Lox.Decimal.Shortest

/-!
# Reading and writing numbers

A number literal is rounded to the nearest double, and a number is written with the fewest
digits that read back as the same double. The layout of the digits is one record: `Number.layout`
says where positional writing ends and how an exponent is spelled.
-/

namespace Lox.Number

/-- The choices in writing a decimal. -/
structure Layout where
  /-- The least power of ten of a leading digit that is written positionally. -/
  least : Int
  /-- The least power of ten above it that is written with an exponent again. -/
  most : Int
  /-- The least number of digits of an exponent. -/
  exponentDigits : Nat
  deriving Repr

/-- Numbers from `0.0001` up to, and without, a million are written positionally; an exponent
has a sign and at least two digits. -/
def layout : Layout :=
  ⟨-4, 6, 2⟩

/-- The digits `ds` with a point after the first of them, if others follow. -/
def withPoint : List Char → List Char
  | [] => []
  | [d] => [d]
  | d :: ds => d :: '.' :: ds

/-- An exponent: the mark, the sign, and the digits filled with zeros. -/
def exponentText (l : Layout) (e : Int) : List Char :=
  let digits := Nat.toDigits 10 e.natAbs
  'e' :: (if e < 0 then '-' else '+') ::
    (List.replicate (l.exponentDigits - digits.length) '0' ++ digits)

/-- The digits `ds`, the first of which counts `10^top`, laid out. -/
def layOut (l : Layout) (ds : List Char) (top : Int) : List Char :=
  if top < l.least ∨ l.most ≤ top then
    withPoint ds ++ exponentText l top
  else if top < 0 then
    '0' :: '.' :: (List.replicate (-top - 1).toNat '0' ++ ds)
  else
    let whole := top.toNat + 1
    if ds.length ≤ whole then ds ++ List.replicate (whole - ds.length) '0'
    else ds.take whole ++ '.' :: ds.drop whole

/-- A decimal without the zeros at its end. -/
def dropZeros (ds : List Char) : List Char :=
  (ds.reverse.dropWhile (· = '0')).reverse

/-- The text of a positive finite double. -/
def positiveText (x : Decimal.Interval) : List Char :=
  let d := Decimal.shortest x
  let ds := Nat.toDigits 10 d.digits
  layOut layout (dropZeros ds) (d.exponent + ds.length - 1)

/-- The magnitude of a finite double other than zero, from its bits. -/
def interval (bits : UInt64) : Decimal.Interval :=
  let fraction : Nat := bits.toNat % Nat.pow 2 52
  let biased : Nat := bits.toNat / Nat.pow 2 52 % Nat.pow 2 11
  if biased = 0 then ⟨fraction, -1074, false⟩
  else ⟨Nat.pow 2 52 + fraction, (biased : Int) - 1075, fraction = 0 && 1 < biased⟩

/-- The text of a number. -/
def text (x : Float) : String :=
  let bits := x.toBits
  let sign := if Nat.pow 2 63 ≤ bits.toNat then ['-'] else []
  if x.isNaN then "NaN"
  else if x.isInf then if sign.isEmpty then "+Inf" else "-Inf"
  else if bits.toNat % Nat.pow 2 63 = 0 then String.ofList (sign ++ ['0'])
  else String.ofList (sign ++ positiveText (interval bits))

/-- The value of a digit. -/
def digit (c : Char) : Nat :=
  c.toNat - '0'.toNat

/-- The natural number that a run of digits spells. -/
def natural (ds : List Char) : Nat :=
  ds.foldl (fun n d => 10 * n + digit d) 0

/-- The double nearest to `m · 10^e`; beyond the greatest finite double, infinity. -/
def ofDecimal (m : Nat) (e : Int) : Float :=
  .ofModel (.ofScientific m e)

/-- The double nearest to a literal: digits, and possibly a point and more digits. -/
def ofLiteral (cs : List Char) : Float :=
  let whole := cs.takeWhile (· ≠ '.')
  let places := (cs.dropWhile (· ≠ '.')).drop 1
  ofDecimal (natural (whole ++ places)) (-(places.length : Int))

end Lox.Number
