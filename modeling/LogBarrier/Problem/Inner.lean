import LogBarrier.Operator.Basic

/-!
# Inner problems

What an inner solver is given: an objective to be minimized subject to the constraints being zero.

Steps are taken in scaled coordinates. The scaling operator of the current iterate maps a step to
the change of the iterate, and the gradient, the Jacobian and the Hessian refer to the step rather
than to the change. Bounds on a step are bounds in these coordinates, too.
-/

namespace LogBarrier

/-- What a solver reports about its iterate, when it stops or considers whether to stop. -/
structure Report (α : Type) where
  /-- The number of iterations done. -/
  iterations : Nat
  /-- The largest entry of the gradient of the Lagrangian. -/
  optimality : α
  /-- The largest entry of the constraints. -/
  violation : α
  /-- The trust radius. -/
  radius : α
  /-- The penalty parameter of the merit function. -/
  penalty : α
  /-- The estimate of the multipliers. -/
  multipliers : Vec α

/-- A problem with equality constraints, in scaled coordinates. -/
structure InnerProblem (α : Type) where
  /-- The number of variables. -/
  dim : Nat
  /-- The number of constraints. -/
  constraintCount : Nat
  /-- The objective at an iterate. -/
  objective : Vec α → Except Fault α
  /-- The gradient of the objective. -/
  gradient : Vec α → Except Fault (Vec α)
  /-- The values of the constraints. -/
  constraints : Vec α → Except Fault (Vec α)
  /-- The Jacobian of the constraints. -/
  jacobian : Vec α → Except Fault (Operator α)
  /-- The Hessian of the Lagrangian at an iterate with the given multipliers. -/
  hessian : Vec α → Vec α → Except Fault (Operator α)
  /-- The scaling operator. -/
  scaling : Vec α → Except Fault (Operator α)
  /-- Whether a solver should stop. -/
  stop : Report α → Bool

/-- Bounds on a scaled step. -/
structure StepBox (α : Type) where
  /-- The lower bounds. -/
  lower : Vec α
  /-- The upper bounds. -/
  upper : Vec α
  /-- Every entry of the step has both bounds. -/
  length_eq : lower.length = upper.length

namespace StepBox

variable {α : Type}

/-- The bounds with the given entries. -/
def ofVectors (lower upper : Vec α) : Except Fault (StepBox α) :=
  if h : lower.length = upper.length then .ok ⟨lower, upper, h⟩ else .error .unequalBounds

theorem length_unbounded [Scalar α] (n : Nat) :
    (List.replicate n (-Scalar.infinity : α)).length =
      (List.replicate n (Scalar.infinity : α)).length := by
  rw [List.length_replicate, List.length_replicate]

/-- Bounds that do not restrict a step with `n` entries. -/
def unbounded [Scalar α] (n : Nat) : StepBox α :=
  ⟨List.replicate n (-Scalar.infinity), List.replicate n Scalar.infinity, length_unbounded n⟩

/-- The number of entries of the step. -/
def dim (bounds : StepBox α) : Nat := bounds.lower.length

end StepBox

end LogBarrier
