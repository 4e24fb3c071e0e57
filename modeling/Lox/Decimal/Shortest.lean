/-!
# The shortest decimal of a double

A double names a whole interval of reals: those that round to it. `shortest m q` is the decimal
with the fewest digits inside the interval of `m · 2^q`, and of several such the one closest to
`m · 2^q`. It is found by trying one digit, two digits, and so on: on each grid of decimals only
the two neighbours of the value need a look, because if any decimal of the grid lies in the
interval then so does one of these two. Seventeen digits always suffice.

Everything is exact arithmetic on natural numbers. A positive rational is a pair of a numerator
and a denominator, compared by cross-multiplying.
-/

namespace Lox.Decimal

/-- The rational `num / den`. -/
structure Ratio where
  num : Nat
  den : Nat
  deriving DecidableEq, Repr

namespace Ratio

/-- `a · 10^p`. -/
def scaleTen (a : Nat) (p : Int) : Ratio :=
  ⟨a * Nat.pow 10 p.toNat, Nat.pow 10 (-p).toNat⟩

/-- `a · 2^e`. -/
def scaleTwo (a : Nat) (e : Int) : Ratio :=
  ⟨a * Nat.pow 2 e.toNat, Nat.pow 2 (-e).toNat⟩

/-- The order of two rationals with positive denominators. -/
def compare (a b : Ratio) : Ordering :=
  Ord.compare (a.num * b.den) (b.num * a.den)

/-- `⌊a / 10^p⌋`. -/
def floorTen (a : Ratio) (p : Int) : Nat :=
  (a.num * Nat.pow 10 (-p).toNat) / (a.den * Nat.pow 10 p.toNat)

/-- `|a - b|`, over the product of the denominators. -/
def distance (a b : Ratio) : Ratio :=
  let x := a.num * b.den
  let y := b.num * a.den
  ⟨(x - y) + (y - x), a.den * b.den⟩

end Ratio

/-- A finite positive double as a significand and a power of two, with the interval of reals
that round to it. The ends are given in quarters of the last place; they belong to the interval
exactly when the significand is even. -/
structure Interval where
  /-- The significand. -/
  m : Nat
  /-- The exponent of two. -/
  q : Int
  /-- Whether the gap below is half the gap above: at a power of two above the least. -/
  narrowBelow : Bool
  deriving DecidableEq, Repr

namespace Interval

/-- The double itself. -/
def value (x : Interval) : Ratio :=
  Ratio.scaleTwo x.m x.q

/-- The lower end. -/
def lower (x : Interval) : Ratio :=
  Ratio.scaleTwo (4 * x.m - if x.narrowBelow then 1 else 2) (x.q - 2)

/-- The upper end. -/
def upper (x : Interval) : Ratio :=
  Ratio.scaleTwo (4 * x.m + 2) (x.q - 2)

/-- Whether a rational rounds to the double. -/
def contains (x : Interval) (r : Ratio) : Bool :=
  match Ratio.compare x.lower r, Ratio.compare r x.upper with
  | .lt, .lt => true
  | .eq, .lt | .lt, .eq => x.m % 2 == 0
  | _, _ => false

end Interval

/-- A decimal `digits · 10^exponent`. -/
structure Scaled where
  digits : Nat
  exponent : Int
  deriving DecidableEq, Repr

/-- The number of decimal digits of `n`. -/
def digitCount (n : Nat) : Nat :=
  (Nat.toDigits 10 n).length

/-- A power of ten by which a double may be multiplied to be at least one: `31 / 100` is more
than the decimal logarithm of two. -/
def lift (x : Interval) : Nat :=
  (-x.q).toNat * 31 / 100 + 1

/-- The power of ten of the leading digit of a positive double. Scaling by a power of ten leaves
the digits alone, and of a number that is at least one the leading digit is in the integral
part. -/
def magnitude (x : Interval) : Int :=
  (digitCount (x.value.floorTen (-(lift x : Int))) : Int) - 1 - lift x

/-- The decimal on the grid of `10^p` that lies in the interval and is closest to the value; of
two at the same distance the even one. -/
def onGrid? (x : Interval) (p : Int) : Option Scaled :=
  let d := x.value.floorTen p
  let below := Ratio.scaleTen d p
  let above := Ratio.scaleTen (d + 1) p
  match x.contains below, x.contains above with
  | false, false => none
  | true, false => some ⟨d, p⟩
  | false, true => some ⟨d + 1, p⟩
  | true, true =>
    match Ratio.compare (x.value.distance below) (x.value.distance above) with
    | .lt => some ⟨d, p⟩
    | .gt => some ⟨d + 1, p⟩
    | .eq => if d % 2 == 0 then some ⟨d, p⟩ else some ⟨d + 1, p⟩

/-- Tries grids of `10^p`, `10^(p-1)`, … in turn, `n` of them. -/
def firstGrid? (x : Interval) : Nat → Int → Option Scaled
  | 0, _ => none
  | n + 1, p =>
    match onGrid? x p with
    | some d => some d
    | none => firstGrid? x n (p - 1)

/-- The shortest decimal that rounds to the double. Were no grid of seventeen digits to have
one, the answer would be the significand's own first seventeen digits. -/
def shortest (x : Interval) : Scaled :=
  let top := magnitude x
  (firstGrid? x 17 top).getD ⟨x.value.floorTen (top - 16), top - 16⟩

end Lox.Decimal
