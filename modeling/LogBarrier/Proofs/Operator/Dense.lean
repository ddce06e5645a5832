import LogBarrier.Proofs.Exact.Rows
import LogBarrier.Proofs.Operator.Constructed

/-!
# Dense matrices of grids

The dense matrix of a grid depends on its operators through their dense matrices only. So an
operator may be replaced by another one with the same dense matrix, whatever the two consist of.

The dense matrix of operators that are put below each other has their rows, one after the other. It
does not matter into how many operators the rows are divided.
-/

namespace LogBarrier

open Extended

namespace Operator

theorem total_append (sizes sizes' : List ℕ) :
    total (sizes ++ sizes') = total sizes + total sizes' := by
  induction sizes with
  | nil => rw [List.nil_append, total_nil, Nat.zero_add]
  | cons size sizes ih => rw [List.cons_append, total_cons, total_cons, ih, Nat.add_assoc]

theorem offset_succ {sizes rest : List ℕ} {k size : ℕ} (h : sizes.drop k = size :: rest) :
    offset sizes (k + 1) = offset sizes k + size := by
  rw [offset, List.take_add, total_append, h, List.take_succ_cons, List.take_zero, total_cons,
    total_nil, Nat.add_zero]
  rfl

variable {α : Type} [Scalar α]

/-- Operators of the whole width that are written below each other into the rows from number `k`
on. -/
theorem rowList_writeBlocks {heights : List ℕ} {width k : ℕ} {ops : List (Operator α)}
    {m : DenseMatrix α} (hheights : heights.drop k = ops.map rows)
    (hcols : ∀ op ∈ ops, op.cols = width) (hm : m.rows = total heights ∧ m.cols = width) :
    (writeBlocks heights [width] ((ops.zipIdx k).map fun (op, i) ↦ ⟨i, 0, op⟩) m).rowList =
      m.rowList.take (offset heights k) ++ (ops.map fun op ↦ op.toMatrix.rowList).flatten := by
  -- Each block is written directly below the rows that have been written before.
  induction ops generalizing k m with
  | nil =>
    rw [List.map_nil, List.drop_eq_nil_iff] at hheights
    rw [List.zipIdx_nil, List.map_nil, writeBlocks, List.map_nil, List.flatten_nil, List.append_nil,
      offset, List.take_of_length_le hheights, ← hm.1, ← DenseMatrix.length_rowList,
      List.take_length]
  | cons op ops ih =>
    rw [List.map_cons] at hheights
    rw [List.forall_mem_cons] at hcols
    have hnext : heights.drop (k + 1) = ops.map rows := by
      rw [← List.drop_drop, hheights, List.drop_one, List.tail_cons]
    have hoffset := offset_succ hheights
    have hfits : offset heights k + op.toMatrix.rows ≤ m.rows := by
      rw [rows_toMatrix, ← hoffset, hm.1]
      exact (Nat.le_add_right _ _).trans (offset_add_le_sum heights (k + 1))
    have hwidth : op.toMatrix.cols = m.cols := by rw [cols_toMatrix, hcols.1, hm.2]
    have habove : (m.rowList.take (offset heights k) ++ op.toMatrix.rowList).length =
        offset heights k + op.rows := by
      rw [List.length_append, List.length_take, DenseMatrix.length_rowList,
        DenseMatrix.length_rowList, rows_toMatrix, Nat.min_eq_left (by omega)]
    have hwritten : (m.setBlock (offset heights k) 0 op.toMatrix).rows = total heights
        ∧ (m.setBlock (offset heights k) 0 op.toMatrix).cols = width := hm
    have hleft : offset [width] 0 = 0 := rfl
    rw [List.zipIdx_cons, List.map_cons, writeBlocks, writeBlock_eq]
    dsimp only
    rw [hleft, ih hnext hcols.2 hwritten, DenseMatrix.rowList_setBlock hwidth hfits, hoffset,
      ← habove, List.take_left, List.map_cons, List.flatten_cons, List.append_assoc]

/-- The rows of a stack are those of its operators, one after the other. -/
theorem rowList_stack {width : ℕ} {ops : List (Operator α)} (hcols : ∀ op ∈ ops, op.cols = width) :
    (block (ops.map rows) [width] (ops.zipIdx.map fun (op, i) ↦ ⟨i, 0, op⟩)).toMatrix.rowList =
      (ops.map fun op ↦ op.toMatrix.rowList).flatten := by
  have hzeros : (DenseMatrix.zeros (total (ops.map rows)) (total [width]) : DenseMatrix α).rows =
      total (ops.map rows)
      ∧ (DenseMatrix.zeros (total (ops.map rows)) (total [width]) : DenseMatrix α).cols = width :=
    ⟨rfl, Nat.add_zero width⟩
  rw [toMatrix, rowList_writeBlocks List.drop_zero hcols hzeros, offset, List.take_zero, total_nil,
    List.take_zero, List.nil_append]

theorem rowList_selection (indices : List ℕ) (width : ℕ) (sign : α) :
    (selection indices width sign).toMatrix.rowList =
      indices.map fun i ↦ (List.range width).map fun j ↦ sign * if i = j then 1 else 0 := by
  rw [toMatrix, selectionMatrix, DenseMatrix.rowList_ofFn]
  conv_rhs => rw [← map_getD_range indices 0, List.map_map]
  refine List.map_congr_left fun k hk ↦ List.map_congr_left fun j _ ↦ ?_
  have hlt := List.mem_range.mp hk
  refine congrArg (sign * ·) (if_congr ?_ rfl rfl)
  dsimp only
  rw [List.getElem?_eq_getElem hlt, List.getD_eq_getElem _ _ hlt, Option.some.injEq]

end Operator

/-! ## Replacing operators -/

namespace Grid

variable {α : Type} [Scalar α]

/-- The grid with every operator replaced by its dense matrix. -/
def dense (grid : Grid α) : Grid α :=
  { grid with blocks := grid.blocks.map fun b ↦ ⟨b.row, b.col, .dense b.content.toMatrix⟩ }

theorem toMatrix_dense (grid : Grid α) :
    grid.dense.toOperator.toMatrix = grid.toOperator.toMatrix := by
  have hwrite : ∀ (blocks : List (Placed (Operator α))) (m : DenseMatrix α),
      Operator.writeBlocks grid.heights grid.widths
          (blocks.map fun b ↦ ⟨b.row, b.col, .dense b.content.toMatrix⟩) m =
        Operator.writeBlocks grid.heights grid.widths blocks m := by
    intro blocks
    induction blocks with
    | nil => exact fun m ↦ rfl
    | cons b blocks ih =>
      intro m
      rw [List.map_cons, Operator.writeBlocks, Operator.writeBlocks, Operator.writeBlock_eq,
        Operator.writeBlock_eq, ih, Operator.toMatrix]
  rw [toOperator, toOperator, Operator.toMatrix, Operator.toMatrix]
  exact hwrite grid.blocks _

theorem dense_place (grid : Grid α) (i j : ℕ) (op : Operator α) :
    dense <$> grid.place i j op = grid.dense.place i j (.dense op.toMatrix) := by
  have hrows : (Operator.dense op.toMatrix).rows = op.rows := Operator.rows_toMatrix op
  have hcols : (Operator.dense op.toMatrix).cols = op.cols := Operator.cols_toMatrix op
  rw [place, place, hrows, hcols, dense, Fault.require, Fault.require]
  split
  · rw [ok_bind, ok_bind]
    split
    · rw [ok_bind, ok_bind, List.filter_map]
      simp only [dense, Functor.map, Except.map, pure, Except.pure, List.map_append, List.map_cons,
        List.map_nil]
      rfl
    · rfl
  · rfl

/-- What is put into a cell matters through its dense matrix only. -/
theorem place_congr {grid grid' : Grid α} {op op' : Operator α} (hgrid : grid.dense = grid'.dense)
    (h : op.toMatrix = op'.toMatrix) (i j : ℕ) :
    dense <$> grid.place i j op = dense <$> grid'.place i j op' := by
  rw [dense_place, dense_place, hgrid, h]

theorem toMatrix_congr {grid grid' : Grid α} (h : grid.dense = grid'.dense) :
    grid.toOperator.toMatrix = grid'.toOperator.toMatrix := by
  rw [← toMatrix_dense, h, toMatrix_dense]

end Grid

end LogBarrier
