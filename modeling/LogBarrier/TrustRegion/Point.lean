import LogBarrier.Problem.Inner
import LogBarrier.TrustRegion.Projector

/-!
# Evaluated iterates

Everything that the trust region method knows about its current iterate. A point is evaluated as a
whole, so its parts always belong to the same iterate.
-/

namespace LogBarrier

/-- An iterate with all that was evaluated there. -/
structure Point (α : Type) where
  /-- The iterate. -/
  iterate : Vec α
  /-- The objective. -/
  objective : α
  /-- The values of the constraints. -/
  residual : Vec α
  /-- The gradient of the objective. -/
  gradient : Vec α
  /-- The Jacobian of the constraints. -/
  jacobian : DenseMatrix α
  /-- The projections that belong to the Jacobian. -/
  projector : Projector α
  /-- The least squares estimate of the multipliers. -/
  multipliers : Vec α
  /-- The Hessian of the Lagrangian. -/
  hessian : Operator α
  /-- The largest entry of the gradient of the Lagrangian. -/
  optimality : α
  /-- The largest entry of the constraints. -/
  violation : α

namespace Point

variable {α : Type} [Scalar α]

/-- Completes an iterate at which the projections have been formed. The Hessian is evaluated with
the given multipliers, or with the estimate if there are none. -/
def finish (problem : InnerProblem α) (z : Vec α) (objective : α) (residual : Vec α)
    (given : Option (Vec α)) (gradient : Vec α) (jacobian : DenseMatrix α)
    (projector : Projector α) : Except Fault (Point α) := do
  let multipliers := Vec.neg (← projector.coefficients gradient)
  let hessian ← problem.hessian z (given.getD multipliers)
  let optimality := Vec.maxNorm (← Vec.add gradient (← jacobian.trMulVec multipliers))
  return {
    iterate := z
    objective, residual, gradient, jacobian, projector, multipliers, hessian, optimality
    violation := Vec.maxNorm residual }

/-- Completes an iterate whose objective and constraints are known. -/
def complete (problem : InnerProblem α) (z : Vec α) (objective : α) (residual : Vec α)
    (given : Option (Vec α)) : Except (Failure SolverError) (Point α) := do
  let gradient ← problem.gradient z
  let jacobian := (← problem.jacobian z).toMatrix
  match Projector.ofMatrix jacobian with
  | .ok projector => finish problem z objective residual given gradient jacobian projector
  | .error cause => throw (.error cause)

/-- Evaluates the first iterate. The Hessian is evaluated with the multipliers that are given. -/
def evaluate (problem : InnerProblem α) (z v : Vec α) :
    Except (Failure SolverError) (Point α) := do
  let objective ← problem.objective z
  let residual ← problem.constraints z
  complete problem z objective residual (some v)

end Point

end LogBarrier
