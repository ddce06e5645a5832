import LogBarrier.DenseMatrix.Basic

/-!
# Triangular systems

Systems with an upper triangular matrix and with its transpose. The first is solved from the last
unknown to the first, the second from the first to the last. A zero on the diagonal is a fault.
-/

namespace LogBarrier

namespace DenseMatrix

variable {α : Type} [Scalar α]

/-- Divides by a diagonal entry. -/
def dividePivot (a pivot : α) : Except Fault α :=
  if pivot == 0 then .error .zeroPivot else .ok (a / pivot)

/-- Solves for the unknowns from number `i` on, given how many of them there are. The unknowns
found so far are subtracted from each right hand side starting with the last one. -/
def solveUpperFrom (r : DenseMatrix α) (b : Vec α) (i : Nat) : Nat → Except Fault (Vec α)
  | 0 => .ok []
  | count + 1 => do
    let y ← solveUpperFrom r b (i + 1) count
    let right := (List.zip ((r.row i).drop (i + 1)) y).foldr (fun (a, u) acc ↦ acc - u * a)
      (b.getD i 0)
    return (← dividePivot right (r.entry i i)) :: y

/-- The solution `y` of `r y = b` for an upper triangular matrix `r`. -/
def solveUpper (r : DenseMatrix α) (b : Vec α) : Except Fault (Vec α) :=
  if b.length = r.cols then solveUpperFrom r b 0 r.cols else .error .shape

/-- Continues the solution of the transposed system through the given columns. The right hand side
starts at the first unknown that is still open. -/
def solveLowerFrom (solved : Vec α) : List (Vec α) → Vec α → Except Fault (Vec α)
  | c :: columns, a :: b => do
    let u ← dividePivot (a - Vec.dotSum c solved) (c.getD solved.length 0)
    solveLowerFrom (solved ++ [u]) columns b
  | _, _ => .ok solved

/-- The solution `y` of `rᵀ y = b` for an upper triangular matrix `r`. -/
def solveTransposed (r : DenseMatrix α) (b : Vec α) : Except Fault (Vec α) :=
  if b.length = r.cols then solveLowerFrom [] r.columns b else .error .shape

end DenseMatrix

end LogBarrier
