import LogBarrier.DenseMatrix.Basic

/-!
# Orthogonal factorization

The factorization `a = q r` of a matrix with at least as many rows as columns into a matrix with
orthonormal columns and an upper triangular one, by Householder reflections.

## The recursion

A reflection sends the first column to a multiple of the first unit vector. The remaining columns
are reflected too, and without their first entries they form a smaller matrix, which is factored in
the same way. The factor `q` is assembled on the way back: below a leading one it holds the smaller
factor, and the reflection is applied to all of it.

## Signs

Every reflection is followed by a change of sign that makes the diagonal of `r` nonnegative. The
same change is applied to the columns of `q`, so the product is unaffected.
-/

namespace LogBarrier

/-- A reflection at the hyperplane orthogonal to a unit vector, followed by a multiplication. -/
structure Reflection (α : Type) where
  /-- The unit vector, or a zero vector for no reflection at all. -/
  axis : Vec α
  /-- The first entry that the reflection alone gives to the vector it was made for. -/
  pivot : α
  /-- The sign by which the reflected vector is multiplied. -/
  sign : α

namespace Reflection

variable {α : Type} [Scalar α]

open Scalar

/-- The sign of a pivot, with negative zero counted as negative. -/
def signOf (pivot : α) : α := copySign 1 pivot

/-- The reflection that sends `v` to a multiple of the first unit vector. A vector whose norm
vanishes is left alone. -/
def clearing (v : Vec α) : Reflection α :=
  match v with
  | [] => ⟨[], 0, 1⟩
  | first :: rest =>
    let squared := Vec.normSq v
    let norm := sqrt squared
    let sign := signFactor first
    let signed := sign * norm
    let factor := (squared + first * sign * norm) * 2.0
    let raw := (first + signed) :: rest
    if factor == 0 then ⟨raw, signed, 1⟩
    else
      let halved := raw.map (· / sqrt factor)
      let length := Vec.norm halved
      ⟨halved.map (· / length), -signed, signOf (-signed)⟩

/-- The reflected vector, multiplied by the sign. -/
def apply (h : Reflection α) (w : Vec α) : Vec α :=
  let factor := Vec.dotSum h.axis w * (h.sign * -2.0)
  List.zipWith (fun a b ↦ factor * a + h.sign * b) h.axis w

end Reflection

/-- The columns of the two factors of a matrix. -/
structure OrthogonalFactors (α : Type) where
  /-- The columns of the orthogonal factor. -/
  orthogonal : List (Vec α)
  /-- The columns of the triangular factor. -/
  triangular : List (Vec α)

namespace OrthogonalFactors

variable {α : Type} [Scalar α]

open Scalar

/-- Factors the matrix with the given number of columns of the given height. -/
def ofColumns (height : Nat) : Nat → List (Vec α) → OrthogonalFactors α
  | 0, _ | _, [] => ⟨[], []⟩
  | count + 1, v :: columns =>
    let h := Reflection.clearing v
    let reflected := columns.map h.apply
    let inner := ofColumns (height - 1) count (reflected.map List.tail)
    let leading : Vec α := 1 :: Vec.zeros (height - 1)
    { orthogonal := (leading :: inner.orthogonal.map (0 :: ·)).map h.apply
      triangular := (abs h.pivot :: Vec.zeros count) ::
        List.zipWith (fun w r ↦ w.headD 0 :: r) reflected inner.triangular }

end OrthogonalFactors

namespace DenseMatrix

variable {α : Type} [Scalar α]

/-- The orthogonal and the triangular factor of a matrix that is not wider than high. -/
def qr (m : DenseMatrix α) : DenseMatrix α × DenseMatrix α :=
  let factors := OrthogonalFactors.ofColumns m.rows m.cols m.columns
  (DenseMatrix.ofColumns m.rows factors.orthogonal, DenseMatrix.ofColumns m.cols factors.triangular)

end DenseMatrix

end LogBarrier
