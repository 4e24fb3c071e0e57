/-!
# Floating-point numbers in fewer bits

A binary interchange format has a sign bit, exponent bits and fraction bits. Each value of the
half and single formats is also a double. `widen` gives the bits of that double. `narrow?` goes
back: it gives the bits in the smaller format, for the doubles that have any.
-/

namespace Lox.Cbor

/-- A binary floating-point format. -/
structure FloatFormat where
  exponentBits : Nat
  fractionBits : Nat
  deriving DecidableEq, Repr

namespace FloatFormat

/-- Two bytes. -/
def half : FloatFormat := ⟨5, 10⟩

/-- Four bytes. -/
def single : FloatFormat := ⟨8, 23⟩

/-- Eight bytes. -/
def double : FloatFormat := ⟨11, 52⟩

/-- The number of bits without the sign. -/
def magnitudeBits (f : FloatFormat) : Nat :=
  f.exponentBits + f.fractionBits

/-- The greatest exponent field, which marks infinities and NaNs. -/
def topExponent (f : FloatFormat) : Nat :=
  Nat.pow 2 f.exponentBits - 1

/-- The bias of the exponent field. -/
def bias (f : FloatFormat) : Nat :=
  Nat.pow 2 (f.exponentBits - 1) - 1

/-- The exponent field of some bits. -/
def exponent (f : FloatFormat) (bits : Nat) : Nat :=
  bits / Nat.pow 2 f.fractionBits % Nat.pow 2 f.exponentBits

/-- The fraction field of some bits. -/
def fraction (f : FloatFormat) (bits : Nat) : Nat :=
  bits % Nat.pow 2 f.fractionBits

/-- The sign bit of some bits. -/
def sign (f : FloatFormat) (bits : Nat) : Nat :=
  bits / Nat.pow 2 f.magnitudeBits % 2

/-- Bits put together from their fields. -/
def assemble (f : FloatFormat) (sign exponent fraction : Nat) : Nat :=
  sign * Nat.pow 2 f.magnitudeBits + exponent * Nat.pow 2 f.fractionBits + fraction

/-- The double with the value of some bits. A subnormal value becomes normal: its leading bit
turns into the hidden one. -/
def widen (f : FloatFormat) (bits : Nat) : Nat :=
  let sign := f.sign bits
  let exponent := f.exponent bits
  let fraction := f.fraction bits
  if exponent = f.topExponent then
    double.assemble sign double.topExponent
      (fraction * Nat.pow 2 (double.fractionBits - f.fractionBits))
  else if exponent ≠ 0 then
    double.assemble sign (exponent + double.bias - f.bias)
      (fraction * Nat.pow 2 (double.fractionBits - f.fractionBits))
  else if fraction = 0 then double.assemble sign 0 0
  else
    let top := fraction.log2
    double.assemble sign (top + double.bias + 1 - f.bias - f.fractionBits)
      ((fraction - Nat.pow 2 top) * Nat.pow 2 (double.fractionBits - top))

/-- The bits closest to a double below, dropping what does not fit. -/
def truncate (f : FloatFormat) (bits : Nat) : Nat :=
  let sign := double.sign bits
  let exponent := double.exponent bits
  let fraction := double.fraction bits
  if exponent = double.topExponent then
    f.assemble sign f.topExponent (fraction / Nat.pow 2 (double.fractionBits - f.fractionBits))
  else if double.bias < exponent + f.bias then
    f.assemble sign (exponent + f.bias - double.bias)
      (fraction / Nat.pow 2 (double.fractionBits - f.fractionBits))
  else
    let shift := double.bias + 1 + double.fractionBits - exponent - f.bias - f.fractionBits
    f.assemble sign 0 ((Nat.pow 2 double.fractionBits + fraction) / Nat.pow 2 shift)

/-- The bits with the value of a double, if there are any. -/
def narrow? (f : FloatFormat) (bits : Nat) : Option Nat :=
  let candidate := f.truncate bits
  if candidate < Nat.pow 2 (f.magnitudeBits + 1) ∧ f.widen candidate = bits then some candidate
  else none

/-- What `narrow?` finds has the value of the double. -/
theorem widen_of_narrow? {f : FloatFormat} {bits b : Nat} (h : f.narrow? bits = some b) :
    f.widen b = bits := by
  simp only [narrow?] at h
  split at h
  · rename_i hb
    cases h
    exact hb.2
  · simp at h

end FloatFormat

end Lox.Cbor
