import LogBarrier.TrustRegion.Journal
import LogBarrier.TrustRegion.Trial

/-!
# The trust region method

The Byrd-Omojokun method for problems with equality constraints. A search starts at a point, and in
every round it consults the stopping criterion, computes a trial step and takes it or not.

## Order of events

The stopping criterion is consulted before the radius is tested, so a problem that is solved at the
start is reported as solved whatever the radius. An accepted step moves the iterate before the new
point is evaluated. If the evaluation fails, the iterate has moved all the same, and the step is not
reported as accepted.
-/

namespace LogBarrier

namespace TrustRegion

variable {α : Type} [Scalar α]

/-- The state of a search at the start of a round. -/
structure State (α : Type) where
  /-- The current point. -/
  point : Point α
  /-- The trust radius. -/
  radius : α
  /-- The penalty parameter. -/
  penalty : α
  /-- The number of rounds done. -/
  rounds : Nat

/-- The report on a state. -/
def State.report (s : State α) : Report α where
  iterations := s.rounds
  optimality := s.point.optimality
  violation := s.point.violation
  radius := s.radius
  penalty := s.penalty
  multipliers := s.point.multipliers

/-- Computes a trial step from the current point, in any monad that has faults. The decisions on
the way are noted as the caller wants it. -/
def proposeIn {m : Type → Type} [Monad m] [MonadLiftT (Except Fault) m] (note : Event → m Unit)
    (problem : InnerProblem α) (options : TrustRegionOptions α) (bounds : StepBox α)
    (s : State α) : m (Trial α) := do
  let (normal, kind) ← Trial.normalStep options bounds s.point s.radius
  note (.normalStep kind)
  let (tangential, report) ← Trial.tangentialStep bounds s.point s.radius normal
  note (.tangentialStep report)
  let step ← Vec.add normal tangential
  Trial.evaluate problem options s.point s.penalty step

/-- The trial step from the current point. -/
def attempt (problem : InnerProblem α) (options : TrustRegionOptions α) (bounds : StepBox α)
    (s : State α) : Except Fault (Trial α) :=
  proposeIn (fun _ ↦ pure ()) problem options bounds s

/-- Computes a trial step from the current point and writes the decisions to the journal. -/
def propose (problem : InnerProblem α) (options : TrustRegionOptions α) (bounds : StepBox α)
    (s : State α) : Run α (Trial α) :=
  proposeIn Run.log problem options bounds s

/-- The state after an accepted trial. -/
def moved (problem : InnerProblem α) (options : TrustRegionOptions α) (s : State α)
    (trial : Trial α) : Except (Failure SolverError) (State α) := do
  return {
    point := ← Point.complete problem trial.next trial.objective trial.residual none
    radius := trial.nextRadius options s.radius
    penalty := trial.penalty
    rounds := s.rounds + 1 }

/-- The state after a rejected trial. -/
def stayed (options : TrustRegionOptions α) (s : State α) (trial : Trial α) : State α :=
  { s with radius := trial.nextRadius options s.radius, rounds := s.rounds + 1 }

/-- Takes or leaves a trial step. -/
def settle (problem : InnerProblem α) (options : TrustRegionOptions α) (s : State α)
    (trial : Trial α) : Run α (State α) := do
  if !Scalar.isFinite trial.quotient then
    Run.log .ratioNotFinite
  if trial.nextRadius options s.radius != s.radius then
    Run.log .radiusChanged
  if trial.isAccepted options then
    Run.moveTo trial.next
    let next ← moved problem options s trial
    Run.log .accepted
    return next
  else
    Run.log .rejected
    return stayed options s trial

/-- Continues a search for the given number of rounds. -/
def search (problem : InnerProblem α) (options : TrustRegionOptions α) (bounds : StepBox α) :
    Nat → State α → Run α (Report α)
  | 0, _ => throw .unfinished
  | left + 1, s => do
    if ← Run.consult problem s.report then
      return s.report
    if s.radius < options.minRadius then
      Run.log .radiusTooSmall
      return s.report
    let trial ← propose problem options bounds s
    let s ← settle problem options s trial
    search problem options bounds left s

/-- The state in which a search starts. -/
def start (problem : InnerProblem α) (z v : Vec α) (radius penalty : α) :
    Except (Failure SolverError) (State α) := do
  return { point := ← Point.evaluate problem z v, radius, penalty, rounds := 0 }

/-- Searches for a solution from the iterate `z` with the multipliers `v`. The stopping criterion is
consulted at most `limit` times. -/
def solve (problem : InnerProblem α) (options : TrustRegionOptions α) (bounds : StepBox α)
    (z v : Vec α) (radius penalty : α) (limit : Nat) :
    Except (Failure SolverError) (Report α) × Journal α :=
  let run : Run α (Report α) := do
    Fault.stepBoundsLength.require (bounds.dim = problem.dim)
    let s ← start problem z v radius penalty
    search problem options bounds limit s
  run.run ⟨z, #[], #[]⟩

end TrustRegion

end LogBarrier
