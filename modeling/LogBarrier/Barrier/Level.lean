import LogBarrier.Scalar

/-!
# Barrier levels

A level fixes how strong the barrier is and how exactly its subproblem is solved.
-/

namespace LogBarrier

/-- The barrier parameter with the tolerance of the solve that belongs to it. -/
structure Level (α : Type) where
  /-- The weight of the barrier term. -/
  parameter : α
  /-- The tolerance for optimality and for the violation of the constraints. -/
  tolerance : α

/-- The level with both parameters multiplied by a ratio. -/
def Level.decay {α : Type} [Scalar α] (level : Level α) (ratio : α) : Level α :=
  ⟨level.parameter * ratio, level.tolerance * ratio⟩

end LogBarrier
