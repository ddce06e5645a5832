import LogBarrier.Problem.Inner
import LogBarrier.Problem.Objective
import LogBarrier.Terms.Basic

/-!
# Problems made of sums of terms

Objectives and constraints that are given by sums of terms. Their derivatives follow from the terms,
so a problem is stated by its formulas alone.
-/

namespace LogBarrier

/-- How a Hessian is handed over. -/
inductive HessianForm where
  /-- As a dense matrix. -/
  | dense
  /-- By its diagonal, the other entries being left out. -/
  | diagonal
  /-- As a zero operator. -/
  | zero
  deriving DecidableEq

namespace HessianForm

variable {α : Type} [Scalar α]

/-- The operator for a Hessian. Only a square matrix has a diagonal. -/
def operator (m : DenseMatrix α) : HessianForm → Except Fault (Operator α)
  | dense => .ok (.dense m)
  | diagonal => if m.rows = m.cols then .ok (.diagonal m.diagonalEntries) else .error .shape
  | zero => .ok (.block [m.rows] [m.cols] [])

end HessianForm

namespace TermSum

variable {α : Type} [Scalar α]

/-- Adds multiples of the Hessians of constraints to a matrix. Constraints without a multiplier, and
multipliers without a constraint, are left out. -/
def addHessians (m : DenseMatrix α) (sums : List (TermSum α)) (v x : Vec α) :
    Except Fault (DenseMatrix α) :=
  (List.zip sums v).foldlM (fun m (terms, a) ↦ do
    return m.zipWith (· + · * a) (← terms.hessian x)) m

/-- The Hessian of the Lagrangian of an objective with constraints. -/
def lagrangianHessian (objective : TermSum α) (equality inequality : List (TermSum α))
    (x v w : Vec α) : Except Fault (DenseMatrix α) := do
  let m ← objective.hessian x
  let m ← addHessians m equality v x
  addHessians m inequality w x

/-- The values of several sums. -/
def values (sums : List (TermSum α)) (x : Vec α) : Except Fault (Vec α) := sums.mapM (·.value x)

/-- The Jacobian of several sums. -/
def jacobian (sums : List (TermSum α)) (x : Vec α) : Except Fault (DenseMatrix α) := do
  return DenseMatrix.ofRows x.length (← sums.mapM fun terms ↦ terms.gradient x)

/-- The constraints given by sums. -/
def constraints (sums : List (TermSum α)) : Constraints α where
  count := sums.length
  value := values sums
  jacobian x := return .dense (← jacobian sums x)

/-- The objective given by a sum, in a problem with constraints given by sums. -/
def objective (domain : Box α) (terms : TermSum α) (equality inequality : List (TermSum α)) :
    Objective α where
  domain := domain
  value := terms.value
  gradient := terms.gradient
  hessian x v w := do
    let m ← lagrangianHessian terms equality inequality x v w
    return .dense m

/-! ## Equality constrained problems -/

/-- A problem with equality constraints and a fixed scaling of its variables. -/
structure ScaledSystem (α : Type) where
  /-- The number of variables. -/
  dim : Nat
  /-- The objective. -/
  objective : TermSum α
  /-- The constraints. -/
  constraints : List (TermSum α)
  /-- The factors by which the entries of a step are multiplied. -/
  scale : Vec α
  /-- How the Hessian is handed over. -/
  form : HessianForm
  /-- The tolerance for optimality and violation. -/
  tolerance : α
  /-- The number of iterations after which a solver stops. -/
  maxIterations : Nat

/-- The problem in scaled coordinates. -/
def ScaledSystem.toInnerProblem (system : ScaledSystem α) : InnerProblem α where
  dim := system.dim
  constraintCount := system.constraints.length
  objective := system.objective.value
  gradient z := do Vec.mul (← system.objective.gradient z) system.scale
  constraints := values system.constraints
  jacobian z := do
    let m ← jacobian system.constraints z
    return .dense (← m.scaleColumns system.scale)
  hessian z v := do
    let m ← lagrangianHessian system.objective system.constraints [] z v []
    system.form.operator (← (← m.scaleRows system.scale).scaleColumns system.scale)
  scaling _ := return .diagonal system.scale
  stop report := (report.optimality < system.tolerance && report.violation < system.tolerance) ||
    system.maxIterations ≤ report.iterations

end TermSum

end LogBarrier
