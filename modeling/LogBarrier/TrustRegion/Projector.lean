import LogBarrier.DenseMatrix.Householder
import LogBarrier.DenseMatrix.Triangular

/-!
# Projections

The null space and the row space of a matrix of full row rank, from an orthogonal factorization of
its transpose. With `aᵀ = q r`,

* the part of `x` in the null space is `x - q qᵀ x`,
* the least squares solution of `aᵀ y = x` solves `r y = qᵀ x`, and
* the solution of `a x = b` of least norm is `q u` with `rᵀ u = b`.

A matrix counts as rank deficient when it has more rows than columns, or when an entry of the
diagonal of `r` is negligible beside the largest one.
-/

namespace LogBarrier

/-- Why an inner solver cannot go on. -/
inductive SolverError where
  /-- The constraints are not independent to first order. -/
  | rankDeficient
  deriving DecidableEq

/-- The text of the error. -/
def SolverError.message : SolverError → String
  | rankDeficient => "constraints jacobian is rank deficient"

/-- The factors of the transpose of a matrix of full row rank. -/
structure Projector (α : Type) where
  /-- The factor with orthonormal columns. -/
  orthogonal : DenseMatrix α
  /-- The upper triangular factor. -/
  triangular : DenseMatrix α

namespace Projector

variable {α : Type} [Scalar α]

open Scalar

/-- Whether an entry of the diagonal is negligible, given the number of columns of the matrix. -/
def isDeficient (diagonal : Vec α) (n : Nat) : Bool :=
  let largest := Vec.maxNorm diagonal
  let tolerance := largest * (epsilon * (n : α))
  largest == 0 || diagonal.any fun d ↦ abs d ≤ tolerance

/-- The factors that a given function finds for the transpose of a matrix, unless it counts as rank
deficient. -/
def ofMatrixBy (factorize : DenseMatrix α → DenseMatrix α × DenseMatrix α) (a : DenseMatrix α) :
    Except SolverError (Projector α) :=
  if a.cols < a.rows then .error .rankDeficient
  else if a.rows = 0 then .ok ⟨DenseMatrix.zeros a.cols 0, DenseMatrix.zeros 0 0⟩
  else
    let (q, r) := factorize a.transpose
    if isDeficient r.diagonalEntries a.cols then .error .rankDeficient else .ok ⟨q, r⟩

/-- The factors that reflections find. -/
def ofMatrix (a : DenseMatrix α) : Except SolverError (Projector α) :=
  ofMatrixBy DenseMatrix.qr a

/-- The number of columns of the matrix. -/
def variableCount (p : Projector α) : Nat := p.orthogonal.rows

/-- The number of rows of the matrix. -/
def constraintCount (p : Projector α) : Nat := p.orthogonal.cols

/-- The part of a vector in the null space of the matrix. -/
def toNullSpace (p : Projector α) (x : Vec α) : Except Fault (Vec α) := do
  Vec.sub x (← p.orthogonal.mulVec (← p.orthogonal.trMulVec x))

/-- The coefficients of the combination of rows of the matrix that is nearest to a vector. -/
def coefficients (p : Projector α) (x : Vec α) : Except Fault (Vec α) := do
  p.triangular.solveUpper (← p.orthogonal.trMulVec x)

/-- The vector of least norm that the matrix maps to `b`. -/
def minNormSolution (p : Projector α) (b : Vec α) : Except Fault (Vec α) := do
  p.orthogonal.mulVec (← p.triangular.solveTransposed b)

end Projector

end LogBarrier
