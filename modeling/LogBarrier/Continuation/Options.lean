import LogBarrier.Scalar

/-!
# Options of the continuation

The level at which the continuation starts, and what every inner solve is given.
-/

namespace LogBarrier

/-- The options of the continuation. -/
structure ContinuationOptions (α : Type) [Scalar α] where
  /-- The barrier parameter of the first level. -/
  initialParameter : α := 0.1
  /-- The tolerance of the first level. -/
  initialTolerance : α := 0.1
  /-- The penalty with which every inner solve starts. -/
  initialPenalty : α := 1.0
  /-- The radius of the first inner solve and the least one of all the others. -/
  initialRadius : α := 1.0
  /-- The number of iterations after which an inner solve ends. -/
  maxInnerIterations : Nat := 1000

namespace Continuation

variable {α : Type} [Scalar α]

/-- The part of a slack that a single step may use up. -/
def slackFraction : α := 0.995

/-- The factor between the parameters of successive levels. -/
def decayRatio : α := 0.2

/-- The factor between the radius at the end of an inner solve and the next one to start with. -/
def radiusGrowth : α := 5.0

end Continuation

end LogBarrier
