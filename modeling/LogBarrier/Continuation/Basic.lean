import LogBarrier.Barrier.SlackForm
import LogBarrier.Continuation.Controls
import LogBarrier.Continuation.InnerSolver

/-!
# The barrier continuation

The interior point method. A sequence of barrier subproblems with decreasing parameters is solved by
an inner solver. After each of them the level decays, the trust radius regrows and the estimate of
the multipliers is kept.

A solve that fails leaves the control parameters as they were, but the iterate is wherever the inner
solver left it.
-/

namespace LogBarrier

/-- The description of a problem from which a continuation is built. -/
structure ContinuationSetup (α : Type) [Scalar α] where
  /-- The objective with its domain. -/
  objective : Objective α
  /-- The nonlinear inequality constraints. -/
  inequality : Constraints α := .none
  /-- The nonlinear equality constraints. -/
  equality : Constraints α := .none
  /-- The matrix and the offset of the linear inequality constraints. -/
  affineInequality : Option (DenseMatrix α × Vec α) := none
  /-- The matrix and the offset of the linear equality constraints. -/
  affineEquality : Option (DenseMatrix α × Vec α) := none
  /-- The initial point. -/
  initial : Vec α := Vec.zeros objective.domain.dim
  /-- The initial estimate of the multipliers, which has to be given. They are ordered as nonlinear
  equalities, linear equalities, nonlinear inequalities, linear inequalities, finite upper bounds
  and finite lower bounds. -/
  multipliers : Option (Vec α) := none
  /-- The options. -/
  options : ContinuationOptions α := {}

/-- A continuation in progress. -/
structure Continuation (α σ ε : Type) [Scalar α] where
  /-- The problem. -/
  subproblem : SlackForm α
  /-- The inner solver. -/
  solver : InnerSolver α σ ε
  /-- The state of the inner solver. -/
  solverState : σ
  /-- The options. -/
  options : ContinuationOptions α
  /-- The bounds on every inner step. -/
  bounds : StepBox α
  /-- The control parameters. -/
  controls : Controls α
  /-- The combined iterate. -/
  iterate : Vec α
  /-- The level that was solved last. -/
  solvedLevel : Option (Level α)

namespace Continuation

variable {α σ ε : Type} [Scalar α]

open Scalar

/-! ## Building -/

/-- The bounds on the steps of an inner solve. They are those of the fraction to the boundary rule:
a step may use up only a part of each slack. -/
def stepBox (p : SlackForm α) : StepBox α where
  lower :=
    List.replicate p.variableCount (-infinity) ++ List.replicate p.slackCount (-slackFraction)
  upper := List.replicate p.dim infinity
  length_eq := by simp [SlackForm.dim]

end Continuation

namespace ContinuationSetup

variable {α σ ε : Type} [Scalar α]

/-- The problem of a setup, given its linear constraints. -/
def form (setup : ContinuationSetup α) (affineInequality affineEquality : AffineSystem α) :
    SlackForm α where
  objective := setup.objective
  inequality := setup.inequality
  equality := setup.equality
  affineInequality := affineInequality
  affineEquality := affineEquality
  initial := setup.initial
  maxIterations := setup.options.maxInnerIterations

/-- The continuation of a setup before its first call, given its problem and its multipliers. -/
def begun (setup : ContinuationSetup α) (solver : InnerSolver α σ ε) (solverState : σ)
    (subproblem : SlackForm α) (multipliers : Vec α) : Continuation α σ ε where
  subproblem := subproblem
  solver := solver
  solverState := solverState
  options := setup.options
  bounds := Continuation.stepBox subproblem
  controls := .start ⟨setup.options.initialParameter, setup.options.initialTolerance⟩
    setup.options.initialRadius multipliers
  iterate := subproblem.start
  solvedLevel := none

end ContinuationSetup

namespace Continuation

variable {α σ ε : Type} [Scalar α]

open Scalar

/-- The continuation of a problem with the given inner solver. -/
def ofSetup (setup : ContinuationSetup α) (solver : InnerSolver α σ ε) (solverState : σ) :
    Except (Failure Inconsistency) (Continuation α σ ε) := do
  let some multipliers := setup.multipliers | throw (.error .noMultipliers)
  let n := setup.objective.domain.dim
  let affineInequality ← AffineSystem.ofParts? n setup.affineInequality
  let affineEquality ← AffineSystem.ofParts? n setup.affineEquality
  let subproblem ← (setup.form affineInequality affineEquality).checked
  Inconsistency.check .multipliers subproblem.constraintCount multipliers.length
  return setup.begun solver solverState subproblem multipliers

/-! ## Inspection -/

/-- The variables of the current iterate. -/
def point (c : Continuation α σ ε) : Vec α := c.iterate.take c.subproblem.variableCount

/-- The slacks of the current iterate. -/
def slack (c : Continuation α σ ε) : Vec α := c.iterate.drop c.subproblem.variableCount

/-- The largest product of a slack with its multiplier. -/
def complementarity (c : Continuation α σ ε) : α :=
  (List.zip c.slack (c.controls.multipliers.drop c.subproblem.equalityCount)).foldl
    (fun acc (s, v) ↦ maxNum acc (abs (s * v))) 0

/-! ## Running -/

/-- The task of the next inner solve. The limit is never reached by a solver that counts its
iterations, because the subproblem stops it before. -/
def task (c : Continuation α σ ε) : InnerTask α where
  problem := c.subproblem.atLevel c.controls.level
  iterate := c.iterate
  multipliers := c.controls.multipliers
  radius := c.controls.radius
  bounds := c.bounds
  penalty := c.options.initialPenalty
  limit := c.subproblem.maxIterations + 2

/-- Solves the subproblem of the current level and goes on to the next one. The report counts the
iterations of all the solves so far. -/
def step (c : Continuation α σ ε) :
    Except (Failure ε) (Report α) × Continuation α σ ε :=
  let (answer, solverState) := c.solver.solve c.task c.solverState
  let c := { c with solverState, iterate := answer.iterate }
  match answer.outcome with
  | .error failure => (.error failure, c)
  | .ok report =>
    (.ok (c.controls.accumulate report),
      { c with
        solvedLevel := some c.controls.level
        controls := c.controls.next report c.options.initialRadius })

/-- Goes on after `done` solves until a criterion is satisfied, but for no more solves than the
limit says. -/
def runFrom (stop : Nat → Report α → Bool) (done : Nat) :
    Nat → Continuation α σ ε → Except (Failure ε) (Report α) × Continuation α σ ε
  | 0, c => (.error .unfinished, c)
  | limit + 1, c =>
    match c.step with
    | (.error failure, c) => (.error failure, c)
    | (.ok report, c) =>
      if stop (done + 1) report then (.ok report, c)
      else runFrom stop (done + 1) limit c

/-- Goes on until a criterion is satisfied, but for no more solves than the limit says. The
criterion is given the number of solves that were done in this run and the report of the last
one. -/
def runUntil (stop : Nat → Report α → Bool) (limit : Nat) (c : Continuation α σ ε) :
    Except (Failure ε) (Report α) × Continuation α σ ε :=
  runFrom stop 0 limit c

/-- Goes on until the default criterion is satisfied, but for no more solves than the limit says. -/
def run (limit : Nat) (c : Continuation α σ ε) :
    Except (Failure ε) (Report α) × Continuation α σ ε :=
  c.runUntil (fun _ ↦ Report.isFinal) limit

end Continuation

end LogBarrier
