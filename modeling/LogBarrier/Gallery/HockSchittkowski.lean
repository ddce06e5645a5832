import LogBarrier.Gallery.Known

/-!
# Problem 71 of the Hock-Schittkowski collection

A small nonlinear program with all kinds of constraints:

```text
minimize    x₁ x₄ (x₁ + x₂ + x₃) + x₃
subject to  x₁ x₂ x₃ x₄ ≥ 25
            x₁² + x₂² + x₃² + x₄² = 40
            1 ≤ x₁, x₂, x₃, x₄ ≤ 5
```

The Hessian belongs to the Lagrangian with both of the nonlinear constraints.
-/

namespace LogBarrier

namespace Gallery

namespace Problem71

variable {α : Type} [Scalar α]

/-- The value of the objective. -/
def value : Vec α → Except Fault α
  | x :: y :: z :: w :: _ => .ok (x * w * (x + y + z) + z)
  | _ => .error .shape

/-- The gradient of the objective. -/
def gradient : Vec α → Except Fault (Vec α)
  | x :: y :: z :: w :: _ =>
    let sum := x + y + z
    .ok [w * (x + sum), x * w, x * w + 1, x * sum]
  | _ => .error .shape

/-- The second derivatives of the objective. -/
def objectiveHessian (x y z w : α) : DenseMatrix α :=
  let corner := 2.0 * x + y + z
  DenseMatrix.ofRows 4 [
    [2.0 * w, w, w, corner],
    [w, 0, 0, x],
    [w, 0, 0, x],
    [corner, x, x, 0]]

/-- The second derivatives of the product of the variables. -/
def productHessian (x y z w : α) : DenseMatrix α :=
  DenseMatrix.ofRows 4 [
    [0, z * w, y * w, y * z],
    [z * w, 0, x * w, x * z],
    [y * w, x * w, 0, x * y],
    [y * z, x * z, x * y, 0]]

/-- The Hessian of the Lagrangian. A missing multiplier counts as zero. -/
def hessian : Vec α → Vec α → Vec α → Except Fault (Operator α)
  | x :: y :: z :: w :: _, v, u =>
    let product := (productHessian x y z w).scale (u.headD 0)
    let m := (objectiveHessian x y z w).zipWith (· - ·) product
    .ok (.dense (m.zipWith (· + ·) (DenseMatrix.diagonal (List.replicate 4 (2.0 * v.headD 0)))))
  | _, _, _ => .error .shape

/-- The inequality constraint `25 - x₁ x₂ x₃ x₄ ≤ 0`. -/
def inequality : Constraints α where
  count := 1
  value x := .ok [25.0 - Vec.product x]
  jacobian := fun
    | x :: y :: z :: w :: _ =>
      .ok (.dense (DenseMatrix.ofRows 4 [[-y * z * w, -x * z * w, -x * y * w, -x * y * z]]))
    | _ => .error .shape

/-- The equality constraint `x₁² + x₂² + x₃² + x₄² - 40 = 0`. -/
def equality : Constraints α where
  count := 1
  value x := .ok [Vec.normSq x - 40.0]
  jacobian x := .ok (.dense (DenseMatrix.ofRows x.length [x.map (2.0 * ·)]))

end Problem71

/-- Problem 71 without its nonlinear constraints, which are `Problem71.inequality` and
`Problem71.equality`. -/
def problem71 {α : Type} [Scalar α] : KnownProblem α where
  objective := {
    domain := Box.cube 4 (by decide) 1 5.0
    value := Problem71.value
    gradient := Problem71.gradient
    hessian := Problem71.hessian }
  starts := [[1.0, 5.0, 5.0, 1.0]]
  solutions := [[1.0, 4.742999, 3.821150, 1.379408]]

end Gallery

end LogBarrier
