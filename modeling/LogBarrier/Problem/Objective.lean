import LogBarrier.Operator.Basic
import LogBarrier.Problem.Box

/-!
# Objectives and nonlinear constraints

An objective is minimized over a domain. Nonlinear constraints are a vector of functions, which are
required to vanish or to be at most zero, depending on where they are used.

The second derivatives of objective and constraints are given together, by the Hessian of the
Lagrangian

```text
L(x, v, w) = f(x) + v · c(x) + w · d(x)
```

where `c` are the nonlinear equality constraints and `d` the nonlinear inequality constraints.
-/

namespace LogBarrier

/-- A function to be minimized, with its derivatives. -/
structure Objective (α : Type) where
  /-- The bounds on the variables. -/
  domain : Box α
  /-- The value at a point. -/
  value : Vec α → Except Fault α
  /-- The gradient at a point. -/
  gradient : Vec α → Except Fault (Vec α)
  /-- The Hessian of the Lagrangian at a point, given the multipliers of the nonlinear equality
  constraints and those of the nonlinear inequality constraints. -/
  hessian : Vec α → Vec α → Vec α → Except Fault (Operator α)

/-- A list of constraint functions with their first derivatives. -/
structure Constraints (α : Type) where
  /-- The number of constraints. -/
  count : Nat
  /-- The values at a point. -/
  value : Vec α → Except Fault (Vec α)
  /-- The Jacobian at a point, with a row for each constraint. -/
  jacobian : Vec α → Except Fault (Operator α)

namespace Constraints

variable {α : Type} [Scalar α]

/-- No constraints at all. -/
def none : Constraints α where
  count := 0
  value _ := .ok []
  jacobian x := .ok (.dense (DenseMatrix.zeros 0 x.length))

/-- Whether there are no constraints. -/
def isEmpty (constraints : Constraints α) : Bool := constraints.count == 0

end Constraints

end LogBarrier
