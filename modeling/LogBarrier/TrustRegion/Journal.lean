import LogBarrier.TrustRegion.Normal
import LogBarrier.TrustRegion.Point
import LogBarrier.TrustRegion.Tangential

/-!
# Journals

A run of the trust region method keeps a journal. It holds the current iterate, which outlives a
failure, the decisions in the order in which they were made, and the reports that were put to the
problem's stopping criterion.
-/

namespace LogBarrier

/-- A decision of the trust region method. -/
inductive Event where
  /-- A normal step was computed. -/
  | normalStep (kind : NormalKind)
  /-- A tangential step was computed. -/
  | tangentialStep (report : TangentialReport)
  /-- The reduction ratio is not finite. -/
  | ratioNotFinite
  /-- The radius was changed. -/
  | radiusChanged
  /-- The trial step was taken. -/
  | accepted
  /-- The trial step was not taken. -/
  | rejected
  /-- The search ended because the radius is too small. -/
  | radiusTooSmall
  deriving DecidableEq

/-- The record of a run. -/
structure Journal (α : Type) where
  /-- The current iterate. -/
  iterate : Vec α
  /-- The decisions so far. -/
  events : Array Event
  /-- The reports put to the stopping criterion so far. -/
  consulted : Array (Report α)

/-- A computation that keeps a journal and may fail. -/
abbrev Run (α : Type) := ExceptT (Failure SolverError) (StateM (Journal α))

namespace Run

variable {α β : Type}

instance : MonadLift (Except (Failure SolverError)) (Run α) where
  monadLift result := ExceptT.mk (pure result)

instance : MonadLift (Except Fault) (Run α) where
  monadLift result := ExceptT.mk (pure (Failure.ofFault result))

/-- Appends a decision to the journal. -/
def log (event : Event) : Run α Unit :=
  modify fun journal ↦ { journal with events := journal.events.push event }

/-- Moves the current iterate. -/
def moveTo (z : Vec α) : Run α Unit := modify fun journal ↦ { journal with iterate := z }

/-- Puts a report to the stopping criterion of a problem. -/
def consult (problem : InnerProblem α) (report : Report α) : Run α Bool := do
  modify fun journal ↦ { journal with consulted := journal.consulted.push report }
  return problem.stop report

end Run

end LogBarrier
