/-!
# Faults and failures

A computation can go wrong in three ways, and they are kept apart.

* A `Fault` is a violated agreement between caller and callee: lengths that disagree, an index
  outside its range, a slack that is not positive. A fault ends the run it occurs in.
* An error of the domain, such as an inconsistent problem or a rank deficient Jacobian, is a value
  of the module's own error type. The caller may go on after it.
* `Failure.unfinished` says that an iteration reached the number of rounds it was allowed.
-/

namespace LogBarrier

/-- A violated agreement between caller and callee. -/
inductive Fault where
  /-- A domain needs at least one variable. -/
  | emptyDomain
  /-- Lower and upper bounds come in pairs. -/
  | unequalBounds
  /-- A lower bound may not exceed its upper bound. -/
  | crossedBounds
  /-- A selected index has to name a column. -/
  | selectionOutOfRange
  /-- A block position has to lie within the partitions. -/
  | blockOutOfRange
  /-- A block has to fill the cell it is put into. -/
  | blockShape
  /-- The combined iterate holds the variables followed by the slacks. -/
  | iterateLength
  /-- There is one multiplier for each constraint. -/
  | multipliersLength
  /-- The logarithm of a slack is taken only where the slack is positive. -/
  | slackNotPositive
  /-- The bounds on a step have one entry for each variable. -/
  | stepBoundsLength
  /-- A generated problem needs at least one variable. -/
  | noVariables
  /-- Two values disagree in length, or an index lies outside its range. -/
  | shape
  /-- A triangular system has a zero on its diagonal. -/
  | zeroPivot
  deriving DecidableEq

namespace Fault

/-- The text of a fault. Faults of plain vector arithmetic have none. -/
def message : Fault → Option String
  | emptyDomain => some "empty domain"
  | unequalBounds => some "lower and upper have different size"
  | crossedBounds => some "lower bound greater than upper bound"
  | selectionOutOfRange => some "selected index out of bounds"
  | blockOutOfRange => some "block index out of bounds"
  | blockShape => some "block shape does not match the partition"
  | iterateLength => some "invalid combined iterate dimension"
  | multipliersLength => some "invalid multipliers dimension"
  | slackNotPositive => some "slack variables must be positive"
  | stepBoundsLength => some "invalid step bounds dimension"
  | noVariables => some "n must be greater than zero"
  | shape => none
  | zeroPivot => none

/-- Succeeds exactly when the condition holds. -/
def require (fault : Fault) (condition : Prop) [Decidable condition] : Except Fault Unit :=
  if condition then .ok () else .error fault

end Fault

/-- Why a computation with domain errors of type `ε` gave no result. -/
inductive Failure (ε : Type) where
  /-- An agreement was violated. -/
  | fault (cause : Fault)
  /-- The computation answered with an error of its domain. -/
  | error (cause : ε)
  /-- The rounds that were allowed did not suffice. -/
  | unfinished
  deriving DecidableEq

/-- A computation that can only fault is one that can fail. -/
def Failure.ofFault {ε β : Type} : Except Fault β → Except (Failure ε) β
  | .ok value => .ok value
  | .error cause => .error (.fault cause)

instance {ε : Type} : MonadLift (Except Fault) (Except (Failure ε)) where
  monadLift := Failure.ofFault

end LogBarrier
