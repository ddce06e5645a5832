import LogBarrier.Vec

/-!
# Boxes

The domain of a problem is a box, given by the bounds of its variables. An infinite bound does not
restrict its variable.
-/

namespace LogBarrier

/-- A box in a positive number of dimensions. -/
structure Box (α : Type) where
  /-- The lower bounds. -/
  lower : Vec α
  /-- The upper bounds. -/
  upper : Vec α
  /-- Every variable has both bounds. -/
  length_eq : lower.length = upper.length
  /-- There is at least one variable. -/
  nonempty : 0 < lower.length

namespace Box

variable {α : Type} [Scalar α]

open Scalar

/-- The number of variables. -/
def dim (box : Box α) : Nat := box.lower.length

/-- The box without bounds. -/
def free (n : Nat) (h : 0 < n) : Box α :=
  ⟨List.replicate n (-infinity), List.replicate n infinity, by simp, by simpa using h⟩

/-- The box without bounds, if there is at least one variable. -/
def unbounded (n : Nat) : Except Fault (Box α) :=
  if h : 0 < n then .ok (free n h) else .error .emptyDomain

/-- The box with the same bounds for every variable. -/
def cube (n : Nat) (h : 0 < n) (lower upper : α) : Box α :=
  ⟨List.replicate n lower, List.replicate n upper, by simp, by simpa using h⟩

/-- The box with the given bounds, which have to be ordered. -/
def ofBounds (lower upper : Vec α) : Except Fault (Box α) :=
  if hlen : lower.length = upper.length then
    if hpos : 0 < lower.length then
      if (List.zip lower upper).all fun (l, u) ↦ l ≤ u then .ok ⟨lower, upper, hlen, hpos⟩
      else .error .crossedBounds
    else .error .emptyDomain
  else .error .unequalBounds

/-- The box with the given pair of bounds for each variable. -/
def ofPairs (bounds : List (α × α)) : Except Fault (Box α) :=
  ofBounds (bounds.map Prod.fst) (bounds.map Prod.snd)

/-- The indices at which a vector of bounds is finite, in ascending order. -/
def restrictedIndices (bounds : Vec α) : List Nat :=
  (List.range bounds.length).filter fun i ↦ isFinite (bounds.getD i 0)

/-- The variables with a finite lower bound. -/
def lowerBounded (box : Box α) : List Nat := restrictedIndices box.lower

/-- The variables with a finite upper bound. -/
def upperBounded (box : Box α) : List Nat := restrictedIndices box.upper

end Box

end LogBarrier
