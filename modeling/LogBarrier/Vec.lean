import LogBarrier.Scalar
import LogBarrier.Fault

/-!
# Vectors

A vector is the list of its entries. Operations on two vectors fault when the lengths disagree,
and every sum is taken from the first entry to the last, starting at zero.
-/

namespace LogBarrier

/-- A vector of scalars. -/
abbrev Vec (α : Type) := List α

namespace Vec

variable {α : Type} [Scalar α]

open Scalar

/-- The zero vector of the given length. -/
def zeros (n : Nat) : Vec α := List.replicate n 0

/-- The entry with the given index. -/
def entry (x : Vec α) (i : Nat) : Except Fault α :=
  match x[i]? with
  | some a => .ok a
  | none => .error .shape

/-- Combines two vectors of one length entry by entry. -/
def combine (f : α → α → α) (x y : Vec α) : Except Fault (Vec α) :=
  if x.length = y.length then .ok (List.zipWith f x y) else .error .shape

/-- The sum of two vectors. -/
def add (x y : Vec α) : Except Fault (Vec α) := combine (· + ·) x y

/-- The difference of two vectors. -/
def sub (x y : Vec α) : Except Fault (Vec α) := combine (· - ·) x y

/-- The entrywise product of two vectors. -/
def mul (x y : Vec α) : Except Fault (Vec α) := combine (· * ·) x y

/-- The vector of negated entries. -/
def neg (x : Vec α) : Vec α := x.map (- ·)

/-- The vector with every entry multiplied by `a`. -/
def scale (x : Vec α) (a : α) : Vec α := x.map (· * a)

/-- The sum of the products of corresponding entries, up to the end of the shorter vector. -/
def dotSum (x y : Vec α) : α := (List.zipWith (· * ·) x y).foldl (· + ·) 0

/-- The inner product of two vectors of one length. -/
def dot (x y : Vec α) : Except Fault α :=
  if x.length = y.length then .ok (dotSum x y) else .error .shape

/-- The sum of the squares of the entries. -/
def normSq (x : Vec α) : α := dotSum x x

/-- The Euclidean norm, the square root of the plain sum of squares. -/
def norm (x : Vec α) : α := sqrt (normSq x)

/-- The largest absolute value of the entries that are numbers, zero if there is none. -/
def maxNorm (x : Vec α) : α := x.foldl (fun acc a ↦ maxNum acc (abs a)) 0

/-- The product of the entries, starting at one. -/
def product (x : Vec α) : α := x.foldl (· * ·) 1

/-- The `size` entries from `offset` on. -/
def slice (x : Vec α) (offset size : Nat) : Except Fault (Vec α) :=
  if offset + size ≤ x.length then .ok ((x.drop offset).take size) else .error .shape

/-- The first `n` entries, of which there have to be that many. -/
def takeExactly (n : Nat) (x : Vec α) : Except Fault (Vec α) :=
  if n ≤ x.length then .ok (x.take n) else .error .shape

/-- Adds the second vector to the entries of `y` from `offset` on. -/
def addAt : Nat → Vec α → Vec α → Except Fault (Vec α)
  | _, [], y => .ok y
  | 0, a :: x, b :: y => return (b + a) :: (← addAt 0 x y)
  | offset + 1, x, b :: y => return b :: (← addAt offset x y)
  | _, _ :: _, [] => .error .shape

/-- Cuts the vector to length `n` or fills it up with zeros. -/
def resize (n : Nat) (x : Vec α) : Vec α := x.take n ++ zeros (n - x.length)

/-! ## Lengths -/

@[simp] theorem length_zeros (n : Nat) : (zeros n : Vec α).length = n := by
  rw [zeros, List.length_replicate]

@[simp] theorem length_neg (x : Vec α) : (neg x).length = x.length := by
  rw [neg, List.length_map]

@[simp] theorem length_scale (x : Vec α) (a : α) : (scale x a).length = x.length := by
  rw [scale, List.length_map]

@[simp] theorem length_resize (n : Nat) (x : Vec α) : (resize n x).length = n := by
  rw [resize, List.length_append, List.length_take, length_zeros]
  omega

omit [Scalar α] in
/-- Entrywise combination succeeds exactly for vectors of one length. -/
theorem combine_eq_ok_iff {f : α → α → α} {x y z : Vec α} :
    combine f x y = .ok z ↔ x.length = y.length ∧ z = List.zipWith f x y := by
  rw [combine]
  split <;> simp_all [eq_comm]

end Vec

end LogBarrier
