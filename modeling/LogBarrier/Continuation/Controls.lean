import LogBarrier.Barrier.Level
import LogBarrier.Continuation.Options
import LogBarrier.Problem.Inner

/-!
# Control parameters

What the continuation hands from one inner solve to the next, and when it is over.
-/

namespace LogBarrier

/-- The control parameters of the continuation. -/
structure Controls (α : Type) where
  /-- The level of the next inner solve. -/
  level : Level α
  /-- The radius of the next inner solve. -/
  radius : α
  /-- The multipliers of the next inner solve. -/
  multipliers : Vec α
  /-- The number of inner iterations so far. -/
  iterations : Nat

namespace Controls

variable {α : Type} [Scalar α]

open Scalar

/-- The control parameters before the first inner solve. -/
def start (level : Level α) (radius : α) (multipliers : Vec α) : Controls α :=
  ⟨level, radius, multipliers, 0⟩

/-- The report of an inner solve with the iterations of all the solves so far. -/
def accumulate (controls : Controls α) (report : Report α) : Report α :=
  { report with iterations := controls.iterations + report.iterations }

/-- The control parameters after an inner solve. -/
def next (controls : Controls α) (report : Report α) (initialRadius : α) : Controls α where
  level := controls.level.decay Continuation.decayRatio
  radius := maxNum initialRadius (Continuation.radiusGrowth * report.radius)
  multipliers := report.multipliers
  iterations := controls.iterations + report.iterations

end Controls

namespace Report

variable {α : Type} [Scalar α]

/-- The accuracy at which the continuation ends by default. -/
def accuracy : α := 1e-8

/-- The number of iterations after which the continuation ends by default. -/
def iterationLimit : Nat := 1000

/-- Whether the continuation ends by default: the accuracy is reached, or there were too many
iterations. -/
def isFinal (report : Report α) : Bool :=
  (report.optimality < accuracy && report.violation < accuracy) ||
    iterationLimit < report.iterations

end Report

end LogBarrier
