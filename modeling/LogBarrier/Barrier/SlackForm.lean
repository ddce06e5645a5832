import LogBarrier.Barrier.Level
import LogBarrier.Operator.Grid
import LogBarrier.Problem.Affine
import LogBarrier.Problem.Inner
import LogBarrier.Problem.Objective

/-!
# The slack form

A problem with inequalities becomes one with equalities only. Every inequality and every finite
bound gets a slack, which has to stay positive, and a logarithmic barrier keeps the slacks away from
zero:

```text
minimize    f(x) - μ ∑ ln sᵢ
subject to  c(x) = 0                    nonlinear equalities
            a x + b = 0                 linear equalities
            d(x) + s = 0                nonlinear inequalities
            g x + h + s = 0             linear inequalities
            x - upper + s = 0           finite upper bounds
            lower - x + s = 0           finite lower bounds
```

The combined iterate `z` holds the variables `x`, followed by the slacks `s`. The constraints come
in the order above, and so do the multipliers.

## Scaling

A step changes the variables by itself and every slack relative to its current value. So the
Jacobian has the slacks in its slack columns, the gradient of the barrier is constant, and the
Hessian of the barrier is multiplied by the slacks from both sides.
-/

namespace LogBarrier

/-- A problem with an initial point. `SlackForm.checked` makes sure that the parts agree in
size. -/
structure SlackForm (α : Type) where
  /-- The objective with its domain. -/
  objective : Objective α
  /-- The nonlinear inequality constraints. -/
  inequality : Constraints α
  /-- The nonlinear equality constraints. -/
  equality : Constraints α
  /-- The linear inequality constraints. -/
  affineInequality : AffineSystem α
  /-- The linear equality constraints. -/
  affineEquality : AffineSystem α
  /-- The initial point. -/
  initial : Vec α
  /-- The number of iterations after which the solve of a level ends in any case. -/
  maxIterations : Nat

namespace SlackForm

variable {α : Type} [Scalar α]

open Scalar

/-! ## Checking the parts -/

/-- Checks the values and the Jacobian of a list of constraints at a point in `n` variables. -/
def checkConstraints (constraints : Constraints α) (x : Vec α) (n : Nat)
    (values jacobianRows jacobianColumns : Component) : Except (Failure Inconsistency) Unit := do
  Inconsistency.check values constraints.count (← constraints.value x).length
  let jacobian ← constraints.jacobian x
  Inconsistency.check jacobianRows constraints.count jacobian.rows
  Inconsistency.check jacobianColumns n jacobian.cols

/-- Checks that all the parts agree in size at the initial point. The first disagreement is
reported. -/
def checkParts (p : SlackForm α) : Except (Failure Inconsistency) Unit := do
  let n := p.objective.domain.dim
  let x := p.initial
  Inconsistency.check .initialPoint n x.length
  Inconsistency.check .objectiveGradient n (← p.objective.gradient x).length
  checkConstraints p.inequality x n
    .inequalityValues .inequalityJacobianRows .inequalityJacobianColumns
  checkConstraints p.equality x n
    .equalityValues .equalityJacobianRows .equalityJacobianColumns
  Inconsistency.check .affineInequalityColumns n p.affineInequality.matrix.cols
  Inconsistency.check .affineEqualityColumns n p.affineEquality.matrix.cols
  let hessian ← p.objective.hessian x (Vec.zeros p.equality.count) (Vec.zeros p.inequality.count)
  Inconsistency.check .hessianRows n hessian.rows
  Inconsistency.check .hessianColumns n hessian.cols

/-- The subproblem, provided that all its parts agree in size. -/
def checked (p : SlackForm α) : Except (Failure Inconsistency) (SlackForm α) := do
  p.checkParts
  return p

/-! ## Sizes -/

/-- The number of variables, without slacks. -/
def variableCount (p : SlackForm α) : Nat := p.objective.domain.dim

/-- The variables with a finite upper bound. -/
def upperBounded (p : SlackForm α) : List Nat := p.objective.domain.upperBounded

/-- The variables with a finite lower bound. -/
def lowerBounded (p : SlackForm α) : List Nat := p.objective.domain.lowerBounded

/-- The number of slacks. -/
def slackCount (p : SlackForm α) : Nat :=
  p.inequality.count + p.affineInequality.count + p.upperBounded.length + p.lowerBounded.length

/-- The number of equality constraints, which need no slack. -/
def equalityCount (p : SlackForm α) : Nat := p.equality.count + p.affineEquality.count

/-- The number of entries of the combined iterate. -/
def dim (p : SlackForm α) : Nat := p.variableCount + p.slackCount

/-- The number of constraints, which is also the number of multipliers. -/
def constraintCount (p : SlackForm α) : Nat := p.equalityCount + p.slackCount

/-! ## Iterates -/

/-- The variables and the slacks of a combined iterate. -/
def split (p : SlackForm α) (z : Vec α) : Except Fault (Vec α × Vec α) :=
  if z.length = p.dim then .ok (z.take p.variableCount, z.drop p.variableCount)
  else .error .iterateLength

/-- The initial point with all slacks equal to one. -/
def start (p : SlackForm α) : Vec α := p.initial ++ List.replicate p.slackCount 1

/-- Faults unless all slacks are positive. -/
def requirePositive (s : Vec α) : Except Fault Unit :=
  Fault.slackNotPositive.require (s.all fun a ↦ 0 < a)

/-- Faults unless there is a multiplier for each constraint. -/
def requireMultipliers (p : SlackForm α) (v : Vec α) : Except Fault Unit :=
  Fault.multipliersLength.require (v.length = p.constraintCount)

/-! ## Functions of the subproblem -/

/-- The objective with the barrier term. -/
def value (p : SlackForm α) (level : Level α) (z : Vec α) : Except Fault α := do
  let (x, s) ← p.split z
  requirePositive s
  let logarithms := s.foldl (fun acc a ↦ acc + ln a) 0
  return (← p.objective.value x) - level.parameter * logarithms

/-- How far each variable with a finite upper bound is above it. -/
def upperResidual (p : SlackForm α) (x : Vec α) : Vec α :=
  p.upperBounded.map fun i ↦ x.getD i 0 - p.objective.domain.upper.getD i 0

/-- How far each variable with a finite lower bound is below it. -/
def lowerResidual (p : SlackForm α) (x : Vec α) : Vec α :=
  p.lowerBounded.map fun i ↦ p.objective.domain.lower.getD i 0 - x.getD i 0

/-- The values of the rows without a slack and of those with one, before the slacks are added. -/
def rowValues (p : SlackForm α) (x : Vec α) : Except Fault (Vec α × Vec α) := do
  let equality ← p.equality.value x
  let affineEquality ← p.affineEquality.residual x
  let inequality ← p.inequality.value x
  let affineInequality ← p.affineInequality.residual x
  return (equality ++ affineEquality,
    inequality ++ affineInequality ++ p.upperResidual x ++ p.lowerResidual x)

/-- The values of the constraints. -/
def constraints (p : SlackForm α) (z : Vec α) : Except Fault (Vec α) := do
  let (x, s) ← p.split z
  let (equalities, slacked) ← p.rowValues x
  Vec.takeExactly p.constraintCount (equalities ++ List.zipWith (· + ·) slacked s)

/-- The scaling operator: one for the variables, and the slack itself for each slack. -/
def scaling (p : SlackForm α) (z : Vec α) : Except Fault (Operator α) := do
  let (_, s) ← p.split z
  return .diagonal (List.replicate p.variableCount 1 ++ s)

/-- The scaled gradient of the objective with the barrier term. -/
def gradient (p : SlackForm α) (level : Level α) (z : Vec α) : Except Fault (Vec α) := do
  let (x, _) ← p.split z
  Vec.takeExactly p.dim
    ((← p.objective.gradient x) ++ List.replicate p.slackCount (-level.parameter))

/-- The rows of the inequalities, without their slack columns. -/
def inequalityRows (p : SlackForm α) (x : Vec α) : Except Fault (Operator α) := do
  let nonlinear ← p.inequality.jacobian x
  let upper ← Operator.select p.upperBounded p.variableCount 1
  let lower ← Operator.select p.lowerBounded p.variableCount (-1)
  let grid ← Grid.stack p.variableCount [nonlinear, .dense p.affineInequality.matrix, upper, lower]
  return grid.toOperator

/-- The scaled Jacobian, given the rows of the inequalities. -/
def assemble (p : SlackForm α) (x s : Vec α) (rows : Operator α) : Except Fault (Operator α) := do
  let grid := Grid.zeros [p.equality.count, p.affineEquality.count, p.slackCount]
    [p.variableCount, p.slackCount]
  let grid ← grid.place 0 0 (← p.equality.jacobian x)
  let grid ← grid.place 1 0 (.dense p.affineEquality.matrix)
  let grid ← grid.place 2 0 rows
  let grid ← grid.place 2 1 (.diagonal s)
  return grid.toOperator

/-- The scaled Jacobian of the constraints. -/
def jacobian (p : SlackForm α) (z : Vec α) : Except Fault (Operator α) := do
  let (x, s) ← p.split z
  p.assemble x s (← p.inequalityRows x)

/-- The Hessian of the Lagrangian in the variables. Only the multipliers of nonlinear constraints
enter it. -/
def variableHessian (p : SlackForm α) (z v : Vec α) : Except Fault (Operator α) := do
  p.requireMultipliers v
  let (x, _) ← p.split z
  let equality ← Vec.slice v 0 p.equality.count
  let inequality ← Vec.slice v p.equalityCount p.inequality.count
  p.objective.hessian x equality inequality

/-- The diagonal entry of the unscaled slack Hessian for a slack and its multiplier: the
primal-dual quotient for a positive multiplier, and the second derivative of the barrier
otherwise. -/
def slackCurvature (parameter s v : α) : α := if 0 < v then v / s else parameter / (s * s)

/-- The diagonal of the unscaled Hessian of the Lagrangian in the slacks. -/
def slackHessian (p : SlackForm α) (level : Level α) (z v : Vec α) : Except Fault (Vec α) := do
  p.requireMultipliers v
  let (_, s) ← p.split z
  requirePositive s
  let multipliers ← Vec.slice v p.equalityCount p.slackCount
  return List.zipWith (slackCurvature level.parameter) s multipliers

/-- The scaled Hessian of the Lagrangian. -/
def hessian (p : SlackForm α) (level : Level α) (z v : Vec α) : Except Fault (Operator α) := do
  let (_, s) ← p.split z
  let ofVariables ← p.variableHessian z v
  let ofSlacks ← p.slackHessian level z v
  let scaled ← Vec.mul (← Vec.mul ofSlacks s) s
  let grid ← Grid.blockDiagonal [ofVariables, .diagonal scaled]
  return grid.toOperator

/-- Whether the solve of a level should stop. -/
def stop (p : SlackForm α) (level : Level α) (report : Report α) : Bool :=
  (report.optimality < level.tolerance && report.violation < level.tolerance) ||
    p.maxIterations < report.iterations

/-- The subproblem of a level, as an inner solver sees it. -/
def atLevel (p : SlackForm α) (level : Level α) : InnerProblem α where
  dim := p.dim
  constraintCount := p.constraintCount
  objective := p.value level
  gradient := p.gradient level
  constraints := p.constraints
  jacobian := p.jacobian
  hessian := p.hessian level
  scaling := p.scaling
  stop := p.stop level

end SlackForm

end LogBarrier
