import LogBarrier.Operator.Grid
import LogBarrier.Proofs.Exact.Coordinates

/-!
# Shapes of operators

An operator is *well formed* if its blocks fill distinct cells of its partitions and its selections
stay within their widths. Then the dense matrix of a block operator is made of the dense matrices of
its blocks, with zeros elsewhere.

## Cells

The offsets of a partition are partial sums, so different parts do not overlap, and a part does not
reach beyond the total. That is all that is used of a partition.
-/

namespace LogBarrier

open Extended

namespace Operator

/-! ## Partitions -/

theorem offset_add_le (sizes : List ℕ) {i j : ℕ} (h : i < j) :
    offset sizes i + sizes.getD i 0 ≤ offset sizes j := by
  induction sizes generalizing i j with
  | nil =>
    simp only [offset, List.take_nil, total_nil, List.getD_nil]
    exact Nat.le_refl 0
  | cons a sizes ih =>
    obtain _ | j := j
    · omega
    rw [offset, offset, List.take_succ_cons, total_cons]
    obtain _ | i := i
    · rw [List.take_zero, total_nil, List.getD_cons_zero]
      omega
    · have hih := ih (Nat.succ_lt_succ_iff.mp h)
      rw [offset, offset] at hih
      rw [List.take_succ_cons, total_cons, List.getD_cons_succ]
      omega

theorem offset_add_le_sum (sizes : List ℕ) (i : ℕ) :
    offset sizes i + sizes.getD i 0 ≤ total sizes := by
  have h := offset_add_le sizes (lt_max_of_lt_left (lt_add_one i) : i < max (i + 1) sizes.length)
  rwa [offset.eq_def sizes (max _ _), List.take_of_length_le (le_max_right _ _)] at h

/-- Parts with different numbers do not overlap. -/
theorem disjoint_parts (sizes : List ℕ) {i j k : ℕ} (h : i ≠ j)
    (hi : offset sizes i ≤ k ∧ k < offset sizes i + sizes.getD i 0) :
    ¬(offset sizes j ≤ k ∧ k < offset sizes j + sizes.getD j 0) := by
  rcases lt_or_gt_of_ne h with hlt | hlt
  · have := offset_add_le sizes hlt
    omega
  · have := offset_add_le sizes hlt
    omega

/-! ## Well-formed operators -/

variable {α : Type}

structure FillsCell (heights widths : List ℕ) (b : Placed (Operator α)) : Prop where
  rows_eq : b.content.rows = heights.getD b.row 0
  cols_eq : b.content.cols = widths.getD b.col 0

/-- Blocks fill distinct cells, and selections stay within their widths. -/
inductive WellFormed : Operator α → Prop
  | dense (m : DenseMatrix α) : WellFormed (dense m)
  | diagonal (d : Vec α) : WellFormed (diagonal d)
  | selection {indices : List ℕ} {width : ℕ} (sign : α) (h : ∀ i ∈ indices, i < width) :
    WellFormed (selection indices width sign)
  | block {heights widths : List ℕ} {blocks : List (Placed (Operator α))}
    (hcontents : ∀ b ∈ blocks, WellFormed b.content)
    (hcells : ∀ b ∈ blocks, FillsCell heights widths b)
    (hdistinct : blocks.Pairwise fun a b ↦ a.row ≠ b.row ∨ a.col ≠ b.col) :
    WellFormed (block heights widths blocks)

variable {heights widths : List ℕ} {b c : Placed (Operator α)}

theorem WellFormed.fillsCell {blocks : List (Placed (Operator α))}
    (h : WellFormed (Operator.block heights widths blocks)) :
    ∀ b ∈ blocks, FillsCell heights widths b := by
  cases h with
  | block _ hcells _ => exact hcells

theorem WellFormed.distinct {blocks : List (Placed (Operator α))}
    (h : WellFormed (Operator.block heights widths blocks)) :
    blocks.Pairwise fun a b ↦ a.row ≠ b.row ∨ a.col ≠ b.col := by
  cases h with
  | block _ _ hdistinct => exact hdistinct

namespace FillsCell

theorem row_le (h : FillsCell heights widths b) :
    offset heights b.row + b.content.rows ≤ total heights := by
  rw [h.rows_eq]
  exact offset_add_le_sum heights b.row

theorem col_le (h : FillsCell heights widths b) :
    offset widths b.col + b.content.cols ≤ total widths := by
  rw [h.cols_eq]
  exact offset_add_le_sum widths b.col

end FillsCell

/-- The block has an entry in row `i` and column `j` of the whole. -/
def Covers (heights widths : List ℕ) (b : Placed (Operator α)) (i j : ℕ) : Prop :=
  (offset heights b.row ≤ i ∧ i < offset heights b.row + b.content.rows)
  ∧ (offset widths b.col ≤ j ∧ j < offset widths b.col + b.content.cols)

instance (heights widths : List ℕ) (b : Placed (Operator α)) (i j : ℕ) :
    Decidable (Covers heights widths b i j) := inferInstanceAs (Decidable (_ ∧ _))

theorem not_covers_of_distinct (hb : FillsCell heights widths b) (hc : FillsCell heights widths c)
    (h : b.row ≠ c.row ∨ b.col ≠ c.col) {i j : ℕ} (hcovers : Covers heights widths b i j) :
    ¬Covers heights widths c i j := by
  rw [Covers, hb.rows_eq, hb.cols_eq] at hcovers
  rw [Covers, hc.rows_eq, hc.cols_eq]
  rintro ⟨hrow, hcol⟩
  rcases h with h | h
  · exact disjoint_parts heights h hcovers.1 hrow
  · exact disjoint_parts widths h hcovers.2 hcol

/-! ## Shapes of dense matrices -/

section Dense

variable [Scalar α]

theorem writeBlock_eq (heights widths : List ℕ) (b : Placed (Operator α)) (m : DenseMatrix α) :
    writeBlock heights widths b m =
      m.setBlock (offset heights b.row) (offset widths b.col) b.content.toMatrix := by
  rw [writeBlock.eq_def]

theorem shape_writeBlocks (heights widths : List ℕ) (blocks : List (Placed (Operator α)))
    (m : DenseMatrix α) : (writeBlocks heights widths blocks m).rows = m.rows
      ∧ (writeBlocks heights widths blocks m).cols = m.cols := by
  induction blocks generalizing m with
  | nil =>
    rw [writeBlocks]
    exact ⟨rfl, rfl⟩
  | cons b blocks ih =>
    rw [writeBlocks, writeBlock_eq]
    exact ih _

theorem shape_toMatrix (op : Operator α) :
    op.toMatrix.rows = op.rows ∧ op.toMatrix.cols = op.cols := by
  cases op with
  | dense m =>
    rw [toMatrix]
    exact ⟨rfl, rfl⟩
  | diagonal d =>
    rw [toMatrix]
    exact ⟨rfl, rfl⟩
  | selection indices width sign =>
    rw [toMatrix]
    exact ⟨rfl, rfl⟩
  | block heights widths blocks =>
    rw [toMatrix]
    exact shape_writeBlocks heights widths blocks _

@[simp] theorem rows_toMatrix (op : Operator α) : op.toMatrix.rows = op.rows :=
  (shape_toMatrix op).1

@[simp] theorem cols_toMatrix (op : Operator α) : op.toMatrix.cols = op.cols :=
  (shape_toMatrix op).2

end Dense

/-! ## Coefficients of block operators -/

noncomputable def coeff (op : Operator Extended) (i j : ℕ) : ℝ := op.toMatrix.coeff i j

/-- What a block contributes to the coefficient of the whole in row `i` and column `j`. -/
noncomputable def cellCoeff (heights widths : List ℕ) (b : Placed (Operator Extended)) (i j : ℕ) :
    ℝ :=
  if Covers heights widths b i j then
    b.content.coeff (i - offset heights b.row) (j - offset widths b.col)
  else 0

variable {blocks : List (Placed (Operator Extended))} {m : DenseMatrix Extended} {i j : ℕ}

theorem coeff_setBlock (block : DenseMatrix Extended) (top left : ℕ) (hi : i < m.rows)
    (hj : j < m.cols) : (m.setBlock top left block).coeff i j =
      if top ≤ i ∧ i < top + block.rows ∧ left ≤ j ∧ j < left + block.cols then
        block.coeff (i - top) (j - left)
      else m.coeff i j := by
  rw [DenseMatrix.setBlock, DenseMatrix.coeff_ofFn _ hi hj]
  split_ifs <;> rfl

/-- Blocks that are written into a matrix add up, if they do not overwrite anything. -/
theorem coeff_writeBlocks
    (hdisjoint : blocks.Pairwise fun b c ↦
      Covers heights widths b i j → ¬Covers heights widths c i j)
    (hi : i < m.rows) (hj : j < m.cols)
    (hzero : ∀ b ∈ blocks, Covers heights widths b i j → m.coeff i j = 0) :
    (writeBlocks heights widths blocks m).coeff i j =
      m.coeff i j + (blocks.map fun b ↦ cellCoeff heights widths b i j).sum := by
  induction blocks generalizing m with
  | nil => rw [writeBlocks, List.map_nil, List.sum_nil, add_zero]
  | cons b blocks ih =>
    rw [List.pairwise_cons] at hdisjoint
    have hstep :=
      coeff_setBlock b.content.toMatrix (offset heights b.row) (offset widths b.col) hi hj
    rw [rows_toMatrix, cols_toMatrix, ← writeBlock_eq] at hstep
    rw [writeBlocks, List.map_cons, List.sum_cons]
    have hrest := ih (m := writeBlock heights widths b m) hdisjoint.2 (by rwa [writeBlock_eq])
      (by rwa [writeBlock_eq])
    -- At most one block covers the entry. If it is this one, the later ones leave the entry alone.
    by_cases hb : Covers heights widths b i j
    · rw [if_pos ⟨hb.1.1, hb.1.2, hb.2⟩] at hstep
      rw [hrest fun c hc hcovers ↦ absurd hcovers (hdisjoint.1 c hc hb), hstep,
        hzero b List.mem_cons_self hb, zero_add, cellCoeff, if_pos hb]
      rfl
    · rw [if_neg fun h ↦ hb ⟨⟨h.1, h.2.1⟩, h.2.2⟩] at hstep
      rw [hrest fun c hc hcovers ↦
        hstep.trans (hzero c (List.mem_cons_of_mem b hc) hcovers), hstep, cellCoeff, if_neg hb,
        zero_add]

/-- The coefficients of a block operator are those of its blocks. -/
theorem coeff_block (h : WellFormed (block heights widths blocks)) (hi : i < total heights)
    (hj : j < total widths) : (block heights widths blocks).coeff i j =
      (blocks.map fun b ↦ cellCoeff heights widths b i j).sum := by
  have hdisjoint : blocks.Pairwise fun b c ↦
      Covers heights widths b i j → ¬Covers heights widths c i j :=
    h.distinct.imp_of_mem fun hb hc hbc ↦
      not_covers_of_distinct (h.fillsCell _ hb) (h.fillsCell _ hc) hbc
  have hzero : (DenseMatrix.zeros (total heights) (total widths)).coeff i j = 0 := by
    rw [DenseMatrix.zeros, DenseMatrix.coeff_ofFn _ hi hj]
    rfl
  rw [coeff, toMatrix, coeff_writeBlocks hdisjoint hi hj fun _ _ _ ↦ hzero, hzero, zero_add]

end Operator

end LogBarrier
