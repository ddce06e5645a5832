import LogBarrier.TrustRegion.Projector
import LogBarrier.TrustRegion.Segment

/-!
# The normal step

The normal step reduces the residual `‖a x + b‖` within a ball and a box around the origin.

The Newton point, the solution of `a x + b = 0` of least norm, is taken when it fits. Otherwise
there are two candidates: the furthest fitting point on the way to the Newton point, and the
furthest fitting point of the dogleg, which first goes to the Cauchy point, the minimizer along the
steepest descent, and from there to the Newton point. The candidate with the smaller residual is
taken.
-/

namespace LogBarrier

/-- How a normal step was found. -/
inductive NormalKind where
  /-- The Newton point fits. -/
  | newton
  /-- There is no descent direction, and the step is towards the Newton point. -/
  | noDescent
  /-- The step ends on the dogleg. -/
  | dogleg
  /-- The step is towards the Newton point. -/
  | truncated
  deriving DecidableEq

namespace NormalStep

variable {α : Type} [Scalar α]

/-- The furthest point of the segment from `z` to `z + d` in the ball and the box, or `z`. -/
def furthest (z d lower upper : Vec α) (radius : α) : Except Fault (Vec α) := do
  let segment ← Segment.inBoxAndBall z d lower upper radius false
  let t := match segment with
    | some (_, last) => last
    | none => 0
  Vec.add z (Vec.scale d t)

/-- The residual at a point. -/
def residual (a : DenseMatrix α) (b x : Vec α) : Except Fault α := do
  return Vec.norm (← Vec.add (← a.mulVec x) b)

/-- The furthest fitting point of the dogleg through the Cauchy point. -/
def doglegPoint (newton cauchy lower upper : Vec α) (radius : α) : Except Fault (Vec α) := do
  let leg ← Vec.sub newton cauchy
  match ← Segment.inBoxAndBall cauchy leg lower upper radius false with
  | some (_, last) => Vec.add cauchy (Vec.scale leg last)
  | none => furthest (Vec.zeros newton.length) cauchy lower upper radius

/-- The normal step for the residual `a x + b`. -/
def compute (a : DenseMatrix α) (p : Projector α) (b : Vec α) (radius : α) (lower upper : Vec α) :
    Except Fault (Vec α × NormalKind) := do
  let newton := Vec.neg (← p.minNormSolution b)
  if Vec.inBox newton lower upper ∧ Vec.norm newton ≤ radius then
    return (newton, .newton)
  let straight ← furthest (Vec.zeros newton.length) newton lower upper radius
  let g ← a.trMulVec b
  let curvature := Vec.normSq (← a.mulVec g)
  if curvature == 0 then
    return (straight, .noDescent)
  let cauchy := Vec.scale g (-Vec.normSq g / curvature)
  let bent ← doglegPoint newton cauchy lower upper radius
  let bentResidual ← residual a b bent
  let straightResidual ← residual a b straight
  return if bentResidual < straightResidual then (bent, .dogleg) else (straight, .truncated)

end NormalStep

end LogBarrier
