/-!
# Scalars

Every algorithm of this library is written once, over an arbitrary type of scalars. A scalar type
provides the operations that the algorithms perform and no laws about them, so the same definition
is run on binary floating point and read over exact arithmetic.

## Comparisons and missing numbers

`maxNum` and `minNum` are the two-argument operations that ignore an argument which is not a
number, and `<`, `≤` and `==` are false as soon as one side is not a number. Code that has to
notice such a value asks `isFinite`.

## Literals

A constant such as `0.3` is a decimal literal. It denotes the nearest representable number of the
type at hand, and exactly three tenths over exact arithmetic.
-/

namespace LogBarrier

/-- The operations on scalars that the algorithms use. No law is required. -/
class Scalar (α : Type) extends Zero α, One α, Add α, Neg α, Sub α, Mul α, Div α, LT α, LE α,
    BEq α, NatCast α, OfScientific α where
  /-- The strict order is decidable. -/
  decLt : DecidableLT α
  /-- The order is decidable. -/
  decLe : DecidableLE α
  /-- The larger argument; if one of them is not a number, the other one. -/
  maxNum : α → α → α
  /-- The smaller argument; if one of them is not a number, the other one. -/
  minNum : α → α → α
  /-- The absolute value. -/
  abs : α → α
  /-- The square root. -/
  sqrt : α → α
  /-- The natural logarithm. -/
  ln : α → α
  /-- The exponential function. -/
  exp : α → α
  /-- The magnitude of the first argument with the sign of the second. -/
  copySign : α → α → α
  /-- Whether the scalar is a number and not infinite. -/
  isFinite : α → Bool
  /-- Positive infinity, the bound that does not bind. -/
  infinity : α

namespace Scalar

variable {α : Type} [Scalar α]

instance : DecidableLT α := decLt

instance : DecidableLE α := decLe

/-- The spacing of binary floating point numbers just above one, `2⁻⁵²`. -/
def epsilon : α := 1 / 4503599627370496.0

/-- The sign of a scalar as a factor: one for nonnegative scalars, minus one otherwise. -/
def signFactor (x : α) : α := if (0 : α) ≤ x then 1 else -1

end Scalar

end LogBarrier
