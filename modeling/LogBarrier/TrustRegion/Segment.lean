import LogBarrier.Vec

/-!
# Segments of a line

The part of the line `z + t d` that lies in a ball, in a box, or in both. The result is the pair of
the least and the greatest `t`, or nothing if the line misses the set.

A search is either over the entire line or over its part with `t` between zero and one. The zero
direction has no segment.
-/

namespace LogBarrier

namespace Segment

variable {α : Type} [Scalar α]

open Scalar

/-- Restricts a segment to `t` between zero and one, unless the entire line is wanted. -/
def clip (a b : α) (entire : Bool) : Option (α × α) :=
  if entire then some (a, b)
  else if b < 0 ∨ 1 < a then none
  else some (maxNum a 0, minNum b 1)

/-- The segment in the ball of the given radius around the origin. The two roots of the quadratic
equation for the sphere are found without subtracting numbers of equal sign. -/
def inBall (z d : Vec α) (radius : α) (entire : Bool) : Except Fault (Option (α × α)) := do
  if Vec.norm d == 0 then
    return none
  if !isFinite radius then
    return some (if entire then -infinity else 0, infinity)
  let a ← Vec.dot d d
  let b := 2.0 * (← Vec.dot z d)
  let c := (← Vec.dot z z) - radius * radius
  let discriminant := b * b - 4.0 * a * c
  if discriminant < 0 then
    return none
  let aux := b + copySign (sqrt discriminant) b
  let t := -aux / (2.0 * a)
  let u := -2.0 * c / aux
  return if t ≤ u then clip t u entire else clip u t entire

/-- Narrows a segment to the slabs of the remaining coordinates, until one of them is missed. A
coordinate in which the direction is zero leaves the segment as it is. -/
def slabs : Vec α → Vec α → Vec α → Vec α → α × α → Except Fault (Option (α × α))
  | [], _, _, _, segment => .ok (some segment)
  | _ :: _, [], _, _, _ => .error .shape
  | _ :: _, _ :: _, [], _, _ => .error .shape
  | x :: z, v :: d, l :: lower, upper, (a, b) =>
    if v == 0 ∧ x < l then .ok none
    else
      match upper with
      | [] => .error .shape
      | u :: upper =>
        if v == 0 then
          if u < x then .ok none else slabs z d lower upper (a, b)
        else
          let t := (l - x) / v
          let s := (u - x) / v
          slabs z d lower upper (maxNum a (minNum t s), minNum b (maxNum t s))

/-- The segment in the box with the given bounds. -/
def inBox (z d lower upper : Vec α) (entire : Bool) : Except Fault (Option (α × α)) := do
  if Vec.norm d == 0 then
    return none
  match ← slabs z d lower upper (-infinity, infinity) with
  | none => return none
  | some (a, b) => return if b < a then none else clip a b entire

/-- The segment in the intersection of the box and the ball. -/
def inBoxAndBall (z d lower upper : Vec α) (radius : α) (entire : Bool) :
    Except Fault (Option (α × α)) := do
  match ← inBox z d lower upper entire with
  | none => return none
  | some (a, b) =>
    match ← inBall z d radius entire with
    | none => return none
    | some (s, t) =>
      let first := maxNum a s
      let last := minNum b t
      return if first ≤ last then some (first, last) else none

end Segment

namespace Vec

variable {α : Type} [Scalar α]

open Scalar

/-- Whether every entry lies between its bounds. -/
def inBox (x lower upper : Vec α) : Bool :=
  (List.zip x (List.zip lower upper)).all fun (a, l, u) ↦ l ≤ a ∧ a ≤ u

/-- Moves every entry to the nearest number between its bounds. -/
def clamp (x lower upper : Vec α) : Except Fault (Vec α) :=
  takeExactly x.length
    ((List.zip x (List.zip lower upper)).map fun (a, l, u) ↦ minNum (maxNum a l) u)

end Vec

end LogBarrier
