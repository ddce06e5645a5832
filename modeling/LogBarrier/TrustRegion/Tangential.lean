import LogBarrier.Operator.Basic
import LogBarrier.TrustRegion.Projector
import LogBarrier.TrustRegion.Segment

/-!
# The tangential step

The tangential step reduces the quadratic model `½ x · h x + c · x` subject to `a x + b = 0`, within
a ball and a box, by conjugate gradients whose directions are projected to the null space of `a`.

## Leaving the region

The iteration ends at the boundary of the ball, along a direction without positive curvature, when
the projected gradient is small, or after as many rounds as the null space has dimensions. An
iterate may leave the box on the way. If the last one is outside, the last one that was inside
replaces it.
-/

namespace LogBarrier

/-- Why the conjugate gradient iteration ended. -/
inductive TangentialStop where
  /-- All the rounds were used. -/
  | exhausted
  /-- The boundary of the ball was reached. -/
  | ballBoundary
  /-- A direction without positive curvature was met. -/
  | negativeCurvature
  /-- The projected gradient is small. -/
  | converged
  deriving DecidableEq

/-- What happened during a conjugate gradient iteration. -/
structure TangentialReport where
  /-- The number of rounds. -/
  rounds : Nat
  /-- Why the iteration ended. -/
  stop : TangentialStop
  /-- Whether the ball or the box restricted the step. -/
  hitsBoundary : Bool
  deriving DecidableEq

namespace TangentialStep

variable {α : Type} [Scalar α]

open Scalar

/-- A length below which a region counts as empty and a gradient as zero. -/
def negligible : α := 1e-25

/-- The data of the quadratic model and of its region. -/
structure Model (α : Type) where
  /-- The Hessian of the model. -/
  hessian : Operator α
  /-- The projections that belong to the constraint matrix. -/
  projector : Projector α
  /-- The radius of the ball. -/
  radius : α
  /-- The lower bounds of the box. -/
  lower : Vec α
  /-- The upper bounds of the box. -/
  upper : Vec α

/-- The number of rounds that an iteration may make: the dimension of the null space. -/
def Model.roundLimit (model : Model α) : Nat :=
  model.projector.variableCount - model.projector.constraintCount

/-- The state of the iteration at the start of a round. -/
structure State (α : Type) where
  /-- The iterate. -/
  x : Vec α
  /-- The last iterate that was inside the box, at first the origin. -/
  inside : Vec α
  /-- The projected gradient of the model. -/
  gradient : Vec α
  /-- The search direction. -/
  direction : Vec α
  /-- The image of the search direction under the Hessian. -/
  image : Vec α
  /-- The squared norm of the projected gradient. -/
  gradientSq : α
  /-- The number of rounds done. -/
  rounds : Nat
  /-- The number of successive rounds that ended outside the box. -/
  outside : Nat

/-- The state with the round counted that is about to be done. -/
def State.counted (s : State α) : State α := { s with rounds := s.rounds + 1 }

/-- The state that takes note of whether the next iterate is inside the box. -/
def State.noting (model : Model α) (s : State α) (x : Vec α) : State α :=
  if Vec.inBox x model.lower model.upper then { s with inside := x, outside := 0 }
  else { s with outside := s.outside + 1 }

/-- The squared norm of the projected gradient below which the iteration has converged. -/
def tolerance (gradientSq : α) : α :=
  maxNum (minNum (0.01 * sqrt gradientSq) (0.1 * gradientSq)) negligible

/-- The state before the first round. The iterate solves `a x + b = 0` with least norm. -/
def start (model : Model α) (c b : Vec α) : Except Fault (State α) := do
  let x := Vec.neg (← model.projector.minNormSolution b)
  let residual ← model.projector.toNullSpace (← Vec.add (← model.hessian.apply x) c)
  let gradient ← model.projector.toNullSpace residual
  let direction := Vec.neg gradient
  let image ← model.hessian.apply direction
  return {
    x, direction, image
    inside := Vec.zeros model.projector.variableCount
    gradient := residual
    gradientSq := Vec.normSq gradient
    rounds := 0
    outside := 0 }

/-- The furthest point in both directions along a line without positive curvature, moved into the
box. -/
def alongNegativeCurvature (model : Model α) (s : State α) : Except Fault (Vec α) := do
  let segment ←
    Segment.inBoxAndBall s.x s.direction model.lower model.upper model.radius true
  let x ← match segment with
    | some (_, t) => if isFinite t then Vec.add s.x (Vec.scale s.direction t) else pure s.x
    | none => pure s.x
  Vec.clamp x model.lower model.upper

/-- The furthest point of a step that leaves the ball, moved into the box. -/
def towardsBoundary (model : Model α) (s : State α) (step : Vec α) : Except Fault (Vec α) := do
  let segment ← Segment.inBoxAndBall s.x step model.lower model.upper model.radius false
  let x ← match segment with
    | some (_, t) => Vec.add s.x (Vec.scale step t)
    | none => pure s.x
  Vec.clamp x model.lower model.upper

/-- The state after a full step of length `t` along the direction to `x`. -/
def advance (model : Model α) (s : State α) (t : α) (x : Vec α) : Except Fault (State α) := do
  let residual ← Vec.add s.gradient (Vec.scale s.image t)
  let gradient ← model.projector.toNullSpace residual
  let gradientSq := Vec.normSq gradient
  let direction ← Vec.sub (Vec.scale s.direction (gradientSq / s.gradientSq)) gradient
  let image ← model.hessian.apply direction
  return { s with x, gradient, gradientSq, direction, image }

/-- Whether too many successive rounds ended outside the box, given how many there may be. -/
def isLost (s : State α) (limit : Nat) : Bool := limit < s.outside

/-- The rounds that are left, with the limits on the gradient and on successive rounds outside. -/
def iterate (model : Model α) (tol : α) (limit : Nat) :
    Nat → State α → Except Fault (State α × TangentialStop × Bool)
  | 0, s => .ok (s, .exhausted, false)
  | left + 1, s =>
    if s.gradientSq < tol then .ok (s, .converged, false)
    else do
      let curvature ← Vec.dot s.image s.direction
      if curvature ≤ 0 then
        let x ← alongNegativeCurvature model s.counted
        return ({ s.counted with x }, .negativeCurvature, true)
      let step := Vec.scale s.direction (s.gradientSq / curvature)
      let x ← Vec.add s.x step
      if model.radius ≤ Vec.norm x then
        let x ← towardsBoundary model s.counted step
        return ({ s.counted with x }, .ballBoundary, true)
      if isLost (s.counted.noting model x) limit then
        return (s.counted.noting model x, .exhausted, false)
      let s' ← advance model (s.counted.noting model x) (s.gradientSq / curvature) x
      iterate model tol limit left s'

/-- The result of an iteration: the last iterate, or the last one inside the box. -/
def conclude (model : Model α) (s : State α) (stop : TangentialStop) (hits : Bool) :
    Vec α × TangentialReport :=
  if Vec.inBox s.x model.lower model.upper then (s.x, ⟨s.rounds, stop, hits⟩)
  else (s.inside, ⟨s.rounds, stop, true⟩)

/-- The tangential step for the model with the given gradient at the origin. -/
def compute (model : Model α) (c b : Vec α) : Except Fault (Vec α × TangentialReport) := do
  let s ← start model c b
  if model.radius - Vec.norm s.x < negligible then
    return (s.x, ⟨0, .ballBoundary, true⟩)
  let (s, stop, hits) ←
    iterate model (tolerance s.gradientSq) model.roundLimit model.roundLimit s
  return conclude model s stop hits

end TangentialStep

end LogBarrier
