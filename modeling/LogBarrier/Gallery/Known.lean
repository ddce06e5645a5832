import LogBarrier.Problem.Objective

/-!
# Known problems

Problems with standard initial points, and with solutions as far as they are known.
-/

namespace LogBarrier

/-- A problem for trying out a solver. -/
structure KnownProblem (α : Type) where
  /-- The objective with its domain. -/
  objective : Objective α
  /-- The standard initial points. -/
  starts : List (Vec α)
  /-- The known solutions. -/
  solutions : List (Vec α)

namespace KnownProblem

variable {α : Type} [Scalar α]

/-- The operator of the matrix with the given factor along its diagonal. -/
def multipleOfIdentity (n : Nat) (factor : α) : Operator α :=
  .dense ((DenseMatrix.identity n).scale factor)

/-- The objective with the squared norm as its value. -/
def squaredNorm (domain : Box α) : Objective α where
  domain := domain
  value x := .ok (Vec.normSq x)
  gradient x := .ok (Vec.scale x 2.0)
  hessian _ _ _ := .ok (multipleOfIdentity domain.dim 2.0)

end KnownProblem

end LogBarrier
