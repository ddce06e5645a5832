import LogBarrier.Gallery.Known

/-!
# Small quadratic problems

Three problems that exercise one kind of constraint each: a linear inequality, bounds, and a linear
equality together with a bound.
-/

namespace LogBarrier

namespace Gallery

variable {α : Type} [Scalar α]

open Scalar

/-! ## A half plane -/

/-- Minimize `x² + y²` subject to `x + y ≥ 1`. The inequality is `halfPlaneInequality`. -/
def halfPlane : KnownProblem α where
  objective := KnownProblem.squaredNorm (Box.free 2 (by decide))
  starts := [[2.0, 2.0], [0, 0], [-1.0, 3.0]]
  solutions := [[0.5, 0.5]]

/-- The inequality `1 - x - y ≤ 0`, as a matrix with an offset. -/
def halfPlaneInequality : DenseMatrix α × Vec α := (DenseMatrix.ofRows 2 [[-1.0, -1.0]], [1.0])

/-! ## A parabola -/

/-- Minimize `(x - 2)²` for `x` between zero and one. The solution lies on the upper bound. -/
def parabola : KnownProblem α where
  objective := {
    domain := Box.cube 1 (by decide) 0 1
    value := fun x ↦ do
      let a ← Vec.entry x 0
      return (a - 2.0) * (a - 2.0)
    gradient := fun x ↦ do
      let a ← Vec.entry x 0
      return [2.0 * (a - 2.0)]
    hessian := fun _ _ _ ↦ .ok (.dense (DenseMatrix.ofRows 1 [[2.0]])) }
  starts := [[0.5], [0.1]]
  solutions := [[1.0]]

/-! ## A plane with a bound -/

/-- The bounds of `boundedPlane`: only the first variable has one. -/
def planeDomain : Box α where
  lower := List.replicate 3 (-infinity)
  upper := [0.5, infinity, infinity]
  length_eq := rfl
  nonempty := by simp

/-- Minimize `x² + y² + z²` subject to `x + y + z = 3` and `x ≤ 1/2`. The equality is
`planeEquality`. -/
def boundedPlane : KnownProblem α where
  objective := KnownProblem.squaredNorm planeDomain
  starts := [[0, 0, 0], [-2.0, 4.0, 1.0]]
  solutions := [[0.5, 1.25, 1.25]]

/-- The equality `x + y + z - 3 = 0`, as a matrix with an offset. -/
def planeEquality : DenseMatrix α × Vec α := (DenseMatrix.ofRows 3 [[1.0, 1.0, 1.0]], [-3.0])

end Gallery

end LogBarrier
