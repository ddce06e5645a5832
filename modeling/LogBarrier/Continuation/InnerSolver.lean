import LogBarrier.TrustRegion.Search

/-!
# Inner solvers

The continuation works with any solver for problems with equality constraints. A solver may have a
state of its own, which is handed from one solve to the next, and errors of its own.
-/

namespace LogBarrier

/-- What an inner solver is asked to do. -/
structure InnerTask (α : Type) where
  /-- The problem. -/
  problem : InnerProblem α
  /-- The iterate to start from. -/
  iterate : Vec α
  /-- The estimate of the multipliers. -/
  multipliers : Vec α
  /-- The trust radius to start with. -/
  radius : α
  /-- The bounds on every scaled step. -/
  bounds : StepBox α
  /-- The penalty to start with. -/
  penalty : α
  /-- How often the stopping criterion may be consulted. -/
  limit : Nat

/-- What an inner solver answers. -/
structure InnerAnswer (α ε : Type) where
  /-- The report, or why there is none. -/
  outcome : Except (Failure ε) (Report α)
  /-- The last iterate, also if the solve failed. -/
  iterate : Vec α

/-- A solver for problems with equality constraints, with states of type `σ` and errors of type
`ε`. -/
structure InnerSolver (α σ ε : Type) where
  /-- The name of the solver. -/
  name : String
  /-- Solves a problem. -/
  solve : InnerTask α → σ → InnerAnswer α ε × σ

variable {α : Type} [Scalar α]

/-- What the trust region method makes of a task. -/
def InnerTask.byTrustRegion (task : InnerTask α) (options : TrustRegionOptions α) :
    Except (Failure SolverError) (Report α) × Journal α :=
  TrustRegion.solve task.problem options task.bounds task.iterate task.multipliers task.radius
    task.penalty task.limit

namespace InnerSolver

/-- The trust region method as an inner solver. Its state is the list of the journals of its runs,
the last one first. -/
def trustRegion (options : TrustRegionOptions α) :
    InnerSolver α (List (Journal α)) SolverError where
  name := "Byrd-Omojokun"
  solve task journals :=
    let (outcome, journal) := task.byTrustRegion options
    (⟨outcome, journal.iterate⟩, journal :: journals)

end InnerSolver

end LogBarrier
