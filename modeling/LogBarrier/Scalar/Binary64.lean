import LogBarrier.Scalar

/-!
# Binary floating point scalars

The scalar type the algorithms are run on: IEEE 754 double precision.
-/

namespace LogBarrier

namespace Binary64

/-- The larger of two doubles, ignoring an argument which is not a number. -/
def maxNum (x y : Float) : Float :=
  if x.isNaN then y else if y.isNaN then x else if x < y then y else x

/-- The smaller of two doubles, ignoring an argument which is not a number. -/
def minNum (x y : Float) : Float :=
  if x.isNaN then y else if y.isNaN then x else if y < x then y else x

/-- The mask of the sign bit. -/
def signBit : UInt64 := 0x8000000000000000

/-- The magnitude bits of the first argument together with the sign bit of the second. -/
def copySign (x y : Float) : Float :=
  Float.ofBits ((x.toBits &&& ~~~signBit) ||| (y.toBits &&& signBit))

end Binary64

instance : Scalar Float where
  natCast := Float.ofNat
  decLt := inferInstance
  decLe := inferInstance
  maxNum := Binary64.maxNum
  minNum := Binary64.minNum
  abs := Float.abs
  sqrt := Float.sqrt
  ln := Float.log
  exp := Float.exp
  copySign := Binary64.copySign
  isFinite := Float.isFinite
  infinity := 1 / 0

end LogBarrier
