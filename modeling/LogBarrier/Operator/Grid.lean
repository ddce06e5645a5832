import LogBarrier.Operator.Basic

/-!
# Block grids

A grid is the plan of a block operator: the sizes of the block rows and block columns, and the
operators put into its cells. A cell holds at most one operator, and putting another one into it
replaces the first.
-/

namespace LogBarrier

/-- A partitioned shape whose cells hold operators. -/
structure Grid (α : Type) where
  /-- The heights of the block rows. -/
  heights : List Nat
  /-- The widths of the block columns. -/
  widths : List Nat
  /-- The operators in the cells, in the order in which they were put there. -/
  blocks : List (Placed (Operator α))

namespace Grid

variable {α : Type}

/-- The grid without any operator. -/
def zeros (heights widths : List Nat) : Grid α := ⟨heights, widths, []⟩

/-- Puts an operator into the cell in block row `i` and block column `j`. The operator has to fill
the cell. -/
def place (grid : Grid α) (i j : Nat) (op : Operator α) : Except Fault (Grid α) := do
  Fault.blockOutOfRange.require (i < grid.heights.length ∧ j < grid.widths.length)
  Fault.blockShape.require (op.rows = grid.heights.getD i 0 ∧ op.cols = grid.widths.getD j 0)
  let others := grid.blocks.filter fun b ↦ !(b.row == i && b.col == j)
  return { grid with blocks := others ++ [⟨i, j, op⟩] }

/-- The operator of the grid. -/
def toOperator (grid : Grid α) : Operator α := .block grid.heights grid.widths grid.blocks

/-- The operators below each other, all of the given width. -/
def stack (width : Nat) (ops : List (Operator α)) : Except Fault (Grid α) :=
  ops.zipIdx.foldlM (fun grid (op, i) ↦ grid.place i 0 op)
    (zeros (ops.map Operator.rows) [width])

/-- The operators along the diagonal, with zeros elsewhere. -/
def blockDiagonal (ops : List (Operator α)) : Except Fault (Grid α) :=
  ops.zipIdx.foldlM (fun grid (op, i) ↦ grid.place i i op)
    (zeros (ops.map Operator.rows) (ops.map Operator.cols))

end Grid

end LogBarrier
