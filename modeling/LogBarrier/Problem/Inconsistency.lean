import LogBarrier.Fault

/-!
# Inconsistent problems

The components of a problem have to agree in size. One that does not is reported together with the
size that was expected and the one that was found.
-/

namespace LogBarrier

/-- A component of a problem whose size is checked. -/
inductive Component where
  | initialPoint
  | objectiveGradient
  | inequalityValues
  | inequalityJacobianRows
  | inequalityJacobianColumns
  | equalityValues
  | equalityJacobianRows
  | equalityJacobianColumns
  | affineOffset
  | affineInequalityColumns
  | affineEqualityColumns
  | hessianRows
  | hessianColumns
  | multipliers
  deriving DecidableEq

/-- The name of a component in a message. -/
def Component.description : Component → String
  | initialPoint => "initial point"
  | objectiveGradient => "objective gradient"
  | inequalityValues => "inequality constraints"
  | inequalityJacobianRows => "inequality constraints jacobian rows"
  | inequalityJacobianColumns => "inequality constraints jacobian columns"
  | equalityValues => "equality constraints"
  | equalityJacobianRows => "equality constraints jacobian rows"
  | equalityJacobianColumns => "equality constraints jacobian columns"
  | affineOffset => "linear constraints offset"
  | affineInequalityColumns => "linear inequality constraints matrix columns"
  | affineEqualityColumns => "linear equality constraints matrix columns"
  | hessianRows => "hessian rows"
  | hessianColumns => "hessian columns"
  | multipliers => "multipliers"

/-- Why a problem cannot be solved as it stands. -/
inductive Inconsistency where
  /-- A component has another size than the problem declares. -/
  | sizeMismatch (component : Component) (expected actual : Nat)
  /-- The initial estimate of the multipliers is missing. -/
  | noMultipliers
  deriving DecidableEq

namespace Inconsistency

/-- The text of an inconsistency. -/
def message : Inconsistency → String
  | sizeMismatch component expected actual =>
    "dimension mismatch in " ++ component.description ++ ": expected " ++ toString expected ++
      ", got " ++ toString actual
  | noMultipliers => "initial multipliers estimate is required"

/-- Succeeds exactly when the two sizes agree. -/
def check (component : Component) (expected actual : Nat) :
    Except (Failure Inconsistency) Unit :=
  if expected = actual then .ok () else .error (.error (.sizeMismatch component expected actual))

end Inconsistency

end LogBarrier
