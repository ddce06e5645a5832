import LogBarrier.DenseMatrix.Basic
import LogBarrier.Problem.Inconsistency

/-!
# Affine systems

Linear constraints are given by a matrix and an offset. The residual `a x + b` is required to vanish
or to be at most zero, depending on where the system is used.
-/

namespace LogBarrier

/-- A matrix with an offset for each of its rows. -/
structure AffineSystem (α : Type) where
  /-- The matrix. -/
  matrix : DenseMatrix α
  /-- The offset. -/
  offset : Vec α
  /-- Every row has its offset. -/
  rows_eq : matrix.rows = offset.length

namespace AffineSystem

variable {α : Type}

/-- The system with the given matrix and offset, provided that every row has its offset. -/
def ofParts (matrix : DenseMatrix α) (offset : Vec α) :
    Except (Failure Inconsistency) (AffineSystem α) :=
  if h : matrix.rows = offset.length then .ok ⟨matrix, offset, h⟩
  else .error (.error (.sizeMismatch .affineOffset matrix.rows offset.length))

/-- The number of rows. -/
def count (system : AffineSystem α) : Nat := system.offset.length

/-- Whether there are no rows. -/
def isEmpty (system : AffineSystem α) : Bool := system.count == 0

variable [Scalar α]

/-- The system in `n` variables without rows. -/
def empty (n : Nat) : AffineSystem α := ⟨DenseMatrix.zeros 0 n, [], rfl⟩

/-- The system with the given parts, or without rows if there are none. -/
def ofParts? (n : Nat) :
    Option (DenseMatrix α × Vec α) → Except (Failure Inconsistency) (AffineSystem α)
  | some (matrix, offset) => ofParts matrix offset
  | none => .ok (empty n)

/-- The value `a x + b`. -/
def residual (system : AffineSystem α) (x : Vec α) : Except Fault (Vec α) := do
  Vec.add (← system.matrix.mulVec x) system.offset

end AffineSystem

end LogBarrier
