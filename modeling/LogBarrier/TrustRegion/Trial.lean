import LogBarrier.TrustRegion.Normal
import LogBarrier.TrustRegion.Options
import LogBarrier.TrustRegion.Point
import LogBarrier.TrustRegion.Tangential

/-!
# Trial steps

A trial step is the sum of a normal step, which reduces the linearized constraints within a part of
the region, and of a tangential step, which reduces the quadratic model within the rest of it and
leaves the linearized constraints as they are.

## Judging a trial

A trial is judged by the merit function `f(z) + ρ ‖c(z)‖`. The penalty `ρ` is raised first, if that
is needed for the predicted reduction to be positive. The ratio of the actual to the predicted
reduction decides about acceptance and about the next radius. A ratio that is not finite counts as
minus infinity.
-/

namespace LogBarrier

/-- A trial step from a point, with what was found at its end. -/
structure Trial (α : Type) where
  /-- The step in scaled coordinates. -/
  step : Vec α
  /-- The length of the step. -/
  length : α
  /-- The value of the quadratic model. -/
  model : α
  /-- The predicted reduction of the norm of the constraints. -/
  feasibilityGain : α
  /-- The penalty with which the step is judged. -/
  penalty : α
  /-- The predicted reduction of the merit function. -/
  predicted : α
  /-- The iterate that the step leads to. -/
  next : Vec α
  /-- The objective at the next iterate. -/
  objective : α
  /-- The values of the constraints at the next iterate. -/
  residual : Vec α
  /-- The actual reduction of the merit function. -/
  actual : α

namespace Trial

variable {α : Type} [Scalar α]

open Scalar

/-! ## The two parts of a step -/

/-- The normal step at a point, in a part of the ball and of the bounds. -/
def normalStep (options : TrustRegionOptions α) (bounds : StepBox α) (point : Point α)
    (radius : α) : Except Fault (Vec α × NormalKind) :=
  NormalStep.compute point.jacobian point.projector point.residual
    (options.normalRadiusShare * radius)
    (Vec.scale bounds.lower options.normalBoundsShare)
    (Vec.scale bounds.upper options.normalBoundsShare)

/-- The radius that a normal step leaves to the tangential step. -/
def remainingRadius (radius : α) (normal : Vec α) : α :=
  sqrt (maxNum (radius * radius - Vec.norm normal * Vec.norm normal) 0)

/-- The model that a normal step leaves to the tangential step. -/
def tangentialModel (bounds : StepBox α) (point : Point α) (radius : α) (normal : Vec α) :
    Except Fault (TangentialStep.Model α) := do
  return {
    hessian := point.hessian
    projector := point.projector
    radius := remainingRadius radius normal
    lower := ← Vec.sub bounds.lower normal
    upper := ← Vec.sub bounds.upper normal }

/-- The tangential step that follows a normal step. -/
def tangentialStep (bounds : StepBox α) (point : Point α) (radius : α) (normal : Vec α) :
    Except Fault (Vec α × TangentialReport) := do
  let gradient ← Vec.add (← point.hessian.apply normal) point.gradient
  let model ← tangentialModel bounds point radius normal
  TangentialStep.compute model gradient (Vec.zeros point.residual.length)

/-! ## Prediction and outcome -/

/-- The least predicted reduction of the norm of the constraints. -/
def minFeasibilityGain : α := 1e-16

/-- The penalty that makes the predicted reduction positive, if the given one does not. -/
def raisedPenalty (options : TrustRegionOptions α) (penalty model gain : α) : α :=
  if 0 < model then maxNum penalty (model / ((1 - options.penaltyShare) * gain)) else penalty

/-- The merit function, given the objective and the values of the constraints. -/
def merit (penalty objective : α) (residual : Vec α) : α := objective + penalty * Vec.norm residual

/-- Evaluates the trial of a step. -/
def evaluate (problem : InnerProblem α) (options : TrustRegionOptions α) (point : Point α)
    (penalty : α) (step : Vec α) : Except Fault (Trial α) := do
  let curvature ← Vec.dot (← point.hessian.apply step) step
  let model := 0.5 * curvature + (← Vec.dot point.gradient step)
  let linearized ← Vec.add (← point.jacobian.mulVec step) point.residual
  let gain := maxNum (Vec.norm point.residual - Vec.norm linearized) minFeasibilityGain
  let penalty := raisedPenalty options penalty model gain
  let next ← Vec.add point.iterate (← (← problem.scaling point.iterate).apply step)
  let objective ← problem.objective next
  let residual ← problem.constraints next
  return {
    step, model, penalty, next, objective, residual
    length := Vec.norm step
    feasibilityGain := gain
    predicted := -model + penalty * gain
    actual := merit penalty point.objective point.residual - merit penalty objective residual }

/-- The quotient of the actual and the predicted reduction. -/
def quotient (trial : Trial α) : α := trial.actual / trial.predicted

/-- The ratio of the actual to the predicted reduction. -/
def ratio (trial : Trial α) : α :=
  if isFinite trial.quotient then trial.quotient else -infinity

/-- Whether the step is taken. -/
def isAccepted (options : TrustRegionOptions α) (trial : Trial α) : Bool :=
  options.acceptableRatio ≤ trial.ratio

/-- The reduced radius after a step with the given ratio. -/
def reducedRadius (options : TrustRegionOptions α) (radius ratio length : α) : α :=
  let proposed := (1 - options.acceptableRatio) / (1 - ratio) * length
  if options.mildShrink * radius ≤ proposed then radius * options.mildShrink
  else if options.harshShrink * radius ≤ proposed then proposed
  else radius * options.harshShrink

/-- The radius after a trial. -/
def nextRadius (options : TrustRegionOptions α) (radius : α) (trial : Trial α) : α :=
  let ratio := trial.ratio
  if options.excellentRatio ≤ ratio then
    maxNum radius (options.excellentGrowth * trial.length)
  else if options.goodRatio ≤ ratio then
    maxNum radius (options.goodGrowth * trial.length)
  else if ratio < options.acceptableRatio then
    reducedRadius options radius ratio trial.length
  else radius

end Trial

end LogBarrier
