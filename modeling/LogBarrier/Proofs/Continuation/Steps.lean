import LogBarrier.Continuation.Basic
import LogBarrier.Proofs.TrustRegion.Conclusions

/-!
# Calls of a continuation

A call does one inner solve, and the trust region method makes of it what its options say. A call
whose solve fails moves the iterate and nothing else.
-/

namespace LogBarrier

namespace Continuation

variable {α : Type} [Scalar α] {options : TrustRegionOptions α}
  {c : Continuation α (List (Journal α)) SolverError}

/-- The solve that the next call does by a trust region method with the given options. -/
def solvedWith (options : TrustRegionOptions α)
    (c : Continuation α (List (Journal α)) SolverError) :
    Except (Failure SolverError) (Report α) × Journal α :=
  c.task.byTrustRegion options

theorem solve_eq_solvedWith (hsolver : c.solver = InnerSolver.trustRegion options) :
    c.solver.solve c.task c.solverState =
      (⟨(c.solvedWith options).1, (c.solvedWith options).2.iterate⟩,
        (c.solvedWith options).2 :: c.solverState) := by
  rw [hsolver]
  rfl

theorem step_of_solvedWith_ok {report : Report α}
    (hsolver : c.solver = InnerSolver.trustRegion options)
    (h : (c.solvedWith options).1 = .ok report) :
    c.step = (.ok (c.controls.accumulate report),
      { c with
        solverState := (c.solvedWith options).2 :: c.solverState
        iterate := (c.solvedWith options).2.iterate
        solvedLevel := some c.controls.level
        controls := c.controls.next report c.options.initialRadius }) := by
  rw [step, solve_eq_solvedWith hsolver, h]

theorem step_of_solvedWith_error {failure : Failure SolverError}
    (hsolver : c.solver = InnerSolver.trustRegion options)
    (h : (c.solvedWith options).1 = .error failure) :
    c.step = (.error failure,
      { c with
        solverState := (c.solvedWith options).2 :: c.solverState
        iterate := (c.solvedWith options).2.iterate }) := by
  rw [step, solve_eq_solvedWith hsolver, h]

end Continuation

end LogBarrier
