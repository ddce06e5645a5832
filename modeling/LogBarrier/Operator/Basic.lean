import LogBarrier.DenseMatrix.Basic

/-!
# Linear operators

Jacobian and Hessian matrices need not be formed. They are given by an operator, which knows its
shape and how to map a vector, and operators are composed into blocks.

## Three views

An operator is applied to a vector, applied transposed, and expanded to a dense matrix. The dense
view of a selection maps the unit vectors; the dense view of a block operator writes the dense
blocks over a zero matrix.

## What an application expects

The output is written over a given vector, and the kinds of operators differ in how much they ask of
it. Dense and diagonal operators insist on exact lengths. A selection reads and writes by index, so
it accepts longer vectors, and leaves the surplus of its output alone. A block operator first clears
its output, reads for each block exactly its range, and adds the result from the offset of the block
on.
-/

namespace LogBarrier

/-- Something put into a cell of a grid. -/
structure Placed (β : Type) where
  /-- The row of the cell. -/
  row : Nat
  /-- The column of the cell. -/
  col : Nat
  /-- What the cell holds. -/
  content : β

/-- A linear operator between vectors. -/
inductive Operator (α : Type) where
  /-- The operator of a dense matrix. -/
  | dense (m : DenseMatrix α)
  /-- The entrywise product with a fixed vector. -/
  | diagonal (entries : Vec α)
  /-- The selected rows of an identity matrix, multiplied by a sign. -/
  | selection (indices : List Nat) (width : Nat) (sign : α)
  /-- A grid of operators; a cell that holds none is zero. -/
  | block (heights widths : List Nat) (blocks : List (Placed (Operator α)))

namespace Operator

variable {α : Type}

/-- The extent of a partition with parts of the given sizes. -/
def total : List Nat → Nat
  | [] => 0
  | size :: sizes => size + total sizes

@[simp] theorem total_nil : total [] = 0 := rfl

@[simp] theorem total_cons (size : Nat) (sizes : List Nat) :
    total (size :: sizes) = size + total sizes := rfl

/-- The number of rows. -/
def rows : Operator α → Nat
  | dense m => m.rows
  | diagonal d => d.length
  | selection indices _ _ => indices.length
  | block heights _ _ => total heights

/-- The number of columns. -/
def cols : Operator α → Nat
  | dense m => m.cols
  | diagonal d => d.length
  | selection _ width _ => width
  | block _ widths _ => total widths

/-- The offset of the part with number `i` in a partition. -/
def offset (sizes : List Nat) (i : Nat) : Nat := total (sizes.take i)

variable [Scalar α]

/-- The identity operator. -/
def identity (n : Nat) : Operator α := diagonal (List.replicate n 1)

/-- The operator that selects rows of the identity of the given width. -/
def select (indices : List Nat) (width : Nat) (sign : α) : Except Fault (Operator α) := do
  Fault.selectionOutOfRange.require (∀ i ∈ indices, i < width)
  return selection indices width sign

/-- Writes the selected entries of `x` over the beginning of `y`. -/
def gather (sign : α) (x : Vec α) : List Nat → Vec α → Except Fault (Vec α)
  | [], y => .ok y
  | _ :: _, [] => .error .shape
  | i :: indices, _ :: y => do
    let a ← Vec.entry x i
    return sign * a :: (← gather sign x indices y)

/-- Adds the entries of `x` to the entries of `y` that the indices name. -/
def scatter (sign : α) : List Nat → Vec α → Vec α → Except Fault (Vec α)
  | [], _, y => .ok y
  | _ :: _, [], _ => .error .shape
  | i :: indices, a :: x, y => do
    let b ← Vec.entry y i
    scatter sign indices x (y.set i (b + sign * a))

/-! ## Application -/

mutual

/-- The image of `x`, written over `y`. -/
def applyOver : Operator α → Vec α → Vec α → Except Fault (Vec α)
  | dense m, x, y => if y.length = m.rows then m.mulVec x else .error .shape
  | diagonal d, x, y => if y.length = x.length then Vec.mul x d else .error .shape
  | selection indices _ sign, x, y => gather sign x indices y
  | block heights widths blocks, x, y =>
    addBlocks heights widths blocks x (Vec.zeros y.length)

/-- Adds the images under all the blocks. -/
def addBlocks (heights widths : List Nat) :
    List (Placed (Operator α)) → Vec α → Vec α → Except Fault (Vec α)
  | [], _, y => .ok y
  | b :: blocks, x, y => do
    let y' ← addBlock heights widths b x y
    addBlocks heights widths blocks x y'

/-- Adds the image of the part of `x` that belongs to the block. -/
def addBlock (heights widths : List Nat) :
    Placed (Operator α) → Vec α → Vec α → Except Fault (Vec α)
  | ⟨i, j, op⟩, x, y => do
    let part ← Vec.slice x (offset widths j) (widths.getD j 0)
    let image ← applyOver op part (Vec.zeros op.rows)
    Vec.addAt (offset heights i) image y

end

mutual

/-- The image of `x` under the transposed operator, written over `y`. -/
def applyTransposedOver : Operator α → Vec α → Vec α → Except Fault (Vec α)
  | dense m, x, y => if y.length = m.cols then m.trMulVec x else .error .shape
  | diagonal d, x, y => if y.length = x.length then Vec.mul x d else .error .shape
  | selection indices _ sign, x, y => scatter sign indices x (Vec.zeros y.length)
  | block heights widths blocks, x, y =>
    addTransposedBlocks heights widths blocks x (Vec.zeros y.length)

/-- Adds the images under all the transposed blocks. -/
def addTransposedBlocks (heights widths : List Nat) :
    List (Placed (Operator α)) → Vec α → Vec α → Except Fault (Vec α)
  | [], _, y => .ok y
  | b :: blocks, x, y => do
    let y' ← addTransposedBlock heights widths b x y
    addTransposedBlocks heights widths blocks x y'

/-- Adds the image of the part of `x` that belongs to the transposed block. -/
def addTransposedBlock (heights widths : List Nat) :
    Placed (Operator α) → Vec α → Vec α → Except Fault (Vec α)
  | ⟨i, j, op⟩, x, y => do
    let part ← Vec.slice x (offset heights i) (heights.getD i 0)
    let image ← applyTransposedOver op part (Vec.zeros op.cols)
    Vec.addAt (offset widths j) image y

end

/-- The image of `x`. -/
def apply (op : Operator α) (x : Vec α) : Except Fault (Vec α) :=
  op.applyOver x (Vec.zeros op.rows)

/-- The image of `x` under the transposed operator. -/
def applyTransposed (op : Operator α) (x : Vec α) : Except Fault (Vec α) :=
  op.applyTransposedOver x (Vec.zeros op.cols)

/-! ## The dense view -/

/-- The dense matrix of a selection. -/
def selectionMatrix (indices : List Nat) (width : Nat) (sign : α) : DenseMatrix α :=
  DenseMatrix.ofFn indices.length width fun k j ↦ sign * (if indices[k]? = some j then 1 else 0)

mutual

/-- The dense matrix of the operator. -/
def toMatrix : Operator α → DenseMatrix α
  | dense m => m
  | diagonal d => DenseMatrix.diagonal d
  | selection indices width sign => selectionMatrix indices width sign
  | block heights widths blocks =>
    writeBlocks heights widths blocks (DenseMatrix.zeros (total heights) (total widths))

/-- Writes the dense blocks over a matrix, later ones over earlier ones. -/
def writeBlocks (heights widths : List Nat) :
    List (Placed (Operator α)) → DenseMatrix α → DenseMatrix α
  | [], m => m
  | b :: blocks, m =>
    writeBlocks heights widths blocks (writeBlock heights widths b m)

/-- Writes the dense block over its cell of a matrix. -/
def writeBlock (heights widths : List Nat) :
    Placed (Operator α) → DenseMatrix α → DenseMatrix α
  | ⟨i, j, op⟩, m => m.setBlock (offset heights i) (offset widths j) (toMatrix op)

end

end Operator

end LogBarrier
