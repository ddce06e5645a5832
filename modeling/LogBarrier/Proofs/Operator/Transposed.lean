import LogBarrier.Proofs.Exact.Operator
import LogBarrier.Proofs.Operator.Shape

/-!
# Transposed operators

A well-formed operator, applied transposed, multiplies a vector by the transpose of its dense
matrix. For a block operator both sides are sums over the blocks: each block adds the image of its
part of the vector to its part of the output, and the entries of the dense matrix outside of the
cells are zero.
-/

namespace LogBarrier

open Extended

/-! ## Sums over ranges and lists -/

theorem sum_range_interval {n offset size : ℕ} (h : offset + size ≤ n) (g : ℕ → ℝ) :
    ∑ i ∈ Finset.range n, (if offset ≤ i ∧ i < offset + size then g i else 0) =
      ∑ i ∈ Finset.range size, g (offset + i) := by
  obtain ⟨rest, rfl⟩ := Nat.exists_eq_add_of_le h
  rw [Finset.sum_range_add, Finset.sum_range_add]
  have hbefore : ∑ i ∈ Finset.range offset,
      (if offset ≤ i ∧ i < offset + size then g i else 0) = 0 :=
    Finset.sum_eq_zero fun i hi ↦ if_neg fun hin ↦ by
      have := Finset.mem_range.mp hi
      omega
  have hafter : ∑ i ∈ Finset.range rest, (if offset ≤ offset + size + i
      ∧ offset + size + i < offset + size then g (offset + size + i) else 0) = 0 :=
    Finset.sum_eq_zero fun i _ ↦ if_neg (by omega)
  rw [hbefore, hafter, zero_add, add_zero]
  refine Finset.sum_congr rfl fun i hi ↦ if_pos ?_
  have := Finset.mem_range.mp hi
  omega

theorem sum_range_list_sum {β : Type} (n : ℕ) (l : List β) (g : β → ℕ → ℝ) :
    ∑ i ∈ Finset.range n, (l.map fun b ↦ g b i).sum =
      (l.map fun b ↦ ∑ i ∈ Finset.range n, g b i).sum := by
  induction l with
  | nil => exact Finset.sum_const_zero
  | cons b l ih =>
    simp only [List.map_cons, List.sum_cons, Finset.sum_add_distrib]
    rw [ih]

namespace Operator

variable {heights widths : List ℕ} {blocks : List (Placed (Operator Extended))} {i j : ℕ}
  {f g : ℕ → ℝ}

/-! ## Block operators -/

/-- What a block contributes to entry `j` of the image of a vector under the transposed whole. -/
noncomputable def transposedPart (heights widths : List ℕ) (b : Placed (Operator Extended))
    (f : ℕ → ℝ) (j : ℕ) : ℝ :=
  if offset widths b.col ≤ j ∧ j < offset widths b.col + b.content.cols then
    ∑ i ∈ Finset.range b.content.rows,
      b.content.coeff i (j - offset widths b.col) * f (offset heights b.row + i)
  else 0

theorem sum_cellCoeff {b : Placed (Operator Extended)} (hb : FillsCell heights widths b)
    (f : ℕ → ℝ) (j : ℕ) : ∑ i ∈ Finset.range (total heights), cellCoeff heights widths b i j * f i =
      transposedPart heights widths b f j := by
  -- Either the column meets the block, and its rows are an interval, or the whole column is zero.
  by_cases hj : offset widths b.col ≤ j ∧ j < offset widths b.col + b.content.cols
  · rw [transposedPart, if_pos hj]
    have hterm : ∀ i, cellCoeff heights widths b i j * f i =
        if offset heights b.row ≤ i ∧ i < offset heights b.row + b.content.rows then
          b.content.coeff (i - offset heights b.row) (j - offset widths b.col) * f i else 0 := by
      intro i
      rw [cellCoeff]
      split_ifs with h₁ h₂ h₃
      · rfl
      · exact absurd h₁.1 h₂
      · exact absurd ⟨h₃, hj⟩ h₁
      · exact zero_mul _
    simp only [hterm]
    rw [sum_range_interval hb.row_le]
    exact Finset.sum_congr rfl fun i _ ↦ by rw [Nat.add_sub_cancel_left]
  · rw [transposedPart, if_neg hj]
    exact Finset.sum_eq_zero fun i _ ↦ by
      rw [cellCoeff, if_neg fun h ↦ hj h.2, zero_mul]

theorem sum_coeff_block (h : WellFormed (block heights widths blocks)) (f : ℕ → ℝ)
    (hj : j < total widths) :
    ∑ i ∈ Finset.range (total heights), (block heights widths blocks).coeff i j * f i =
      (blocks.map fun b ↦ transposedPart heights widths b f j).sum := by
  have hterm : ∀ i ∈ Finset.range (total heights), (block heights widths blocks).coeff i j * f i =
      (blocks.map fun b ↦ cellCoeff heights widths b i j * f i).sum := by
    intro i hi
    rw [coeff_block h (Finset.mem_range.mp hi) hj, List.sum_map_mul_right]
  rw [Finset.sum_congr rfl hterm, sum_range_list_sum]
  exact congrArg List.sum (List.map_congr_left fun b hb ↦
    sum_cellCoeff (h.fillsCell b hb) f j)

/-- The operator, applied transposed, multiplies by the transpose of its dense matrix. -/
def Transposes (op : Operator Extended) : Prop :=
  ∀ (f : ℕ → ℝ) (y : Vec Extended), y.length = op.cols →
    op.applyTransposedOver (Vec.ofCoords op.rows f) y =
      .ok (Vec.ofCoords op.cols fun j ↦ ∑ i ∈ Finset.range op.rows, op.coeff i j * f i)

theorem addTransposedBlock_ofCoords {b : Placed (Operator Extended)}
    (hb : FillsCell heights widths b) (h : Transposes b.content) (f g : ℕ → ℝ) :
    addTransposedBlock heights widths b (Vec.ofCoords (total heights) f)
        (Vec.ofCoords (total widths) g) =
      .ok (Vec.ofCoords (total widths) fun j ↦ g j + transposedPart heights widths b f j) := by
  rw [addTransposedBlock.eq_def]
  dsimp only
  rw [Vec.slice_ofCoords (hb.rows_eq ▸ hb.row_le), ← hb.rows_eq]
  change (do
    let image ← b.content.applyTransposedOver
      (Vec.ofCoords b.content.rows fun i ↦ f (offset heights b.row + i)) (Vec.zeros b.content.cols)
    Vec.addAt (offset widths b.col) image (Vec.ofCoords (total widths) g)) = _
  rw [h _ _ (Vec.length_zeros _)]
  exact Vec.addAt_ofCoords hb.col_le _ g

theorem addTransposedBlocks_ofCoords (hcells : ∀ b ∈ blocks, FillsCell heights widths b)
    (h : ∀ b ∈ blocks, Transposes b.content) (f g : ℕ → ℝ) :
    addTransposedBlocks heights widths blocks (Vec.ofCoords (total heights) f)
        (Vec.ofCoords (total widths) g) =
      .ok (Vec.ofCoords (total widths) fun j ↦
        g j + (blocks.map fun b ↦ transposedPart heights widths b f j).sum) := by
  induction blocks generalizing g with
  | nil =>
    rw [addTransposedBlocks]
    exact congrArg _ (Vec.ofCoords_congr fun j _ ↦ (add_zero _).symm)
  | cons b blocks ih =>
    rw [List.forall_mem_cons] at hcells h
    rw [addTransposedBlocks, addTransposedBlock_ofCoords hcells.1 h.1]
    change addTransposedBlocks heights widths blocks _ _ = _
    rw [ih hcells.2 h.2]
    exact congrArg _ (Vec.ofCoords_congr fun j _ ↦ by rw [List.map_cons, List.sum_cons, add_assoc])

/-! ## Selections and diagonals -/

theorem coeff_selection {indices : List ℕ} {width : ℕ} (σ : ℝ) (hi : i < indices.length)
    (hj : j < width) : (selection indices width (real σ)).coeff i j =
      if indices[i]? = some j then σ else 0 := by
  rw [coeff, toMatrix, selectionMatrix, DenseMatrix.coeff_ofFn _ hi hj]
  split_ifs
  · exact mul_one σ
  · exact mul_zero σ

theorem coeff_diagonal {d : Vec Extended} (hi : i < d.length) (hj : j < d.length) :
    (diagonal d).coeff i j = if i = j then d.coord i else 0 := by
  rw [coeff, toMatrix, DenseMatrix.diagonal, DenseMatrix.coeff_ofFn _ hi hj]
  split_ifs <;> rfl

theorem sum_diagonal {d : Vec Extended} (f : ℕ → ℝ) (hj : j < d.length) :
    ∑ i ∈ Finset.range d.length, (diagonal d).coeff i j * f i = d.coord j * f j := by
  have hterm : ∀ i ∈ Finset.range d.length,
      (diagonal d).coeff i j * f i = if j = i then d.coord j * f j else 0 := by
    intro i hi
    rw [coeff_diagonal (Finset.mem_range.mp hi) hj]
    split_ifs with h₁ h₂ h₂
    · rw [h₁]
    · exact absurd h₁.symm h₂
    · exact absurd h₂.symm h₁
    · exact zero_mul _
  rw [Finset.sum_congr rfl hterm, Finset.sum_ite_eq, if_pos (Finset.mem_range.mpr hj)]

theorem scatter_ofCoords {n : ℕ} (σ : ℝ) (indices : List ℕ) (h : ∀ i ∈ indices, i < n)
    (f g : ℕ → ℝ) :
    scatter (real σ) indices (Vec.ofCoords indices.length f) (Vec.ofCoords n g) =
      .ok (Vec.ofCoords n fun j ↦ g j + ∑ i ∈ Finset.range indices.length,
        (if indices[i]? = some j then σ else 0) * f i) := by
  induction indices generalizing f g with
  | nil =>
    rw [scatter]
    exact congrArg _ (Vec.ofCoords_congr fun j _ ↦ (add_zero _).symm)
  | cons k indices ih =>
    rw [List.forall_mem_cons] at h
    -- The first index adds one term, and it is the first one of the sum.
    rw [List.length_cons, Vec.ofCoords_succ, scatter, Vec.entry, Vec.getElem?_ofCoords h.1]
    change scatter (real σ) indices _ ((Vec.ofCoords n g).set k (real (g k + σ * f 0))) = _
    rw [Vec.set_ofCoords, ih h.2]
    refine congrArg _ (Vec.ofCoords_congr fun j _ ↦ ?_)
    rw [Finset.sum_range_succ', ← add_assoc, add_right_comm]
    simp only [List.getElem?_cons_succ, List.getElem?_cons_zero, Option.some.injEq]
    split_ifs with hj
    · rw [hj]
    · rw [zero_mul, add_zero]

/-! ## All operators -/

theorem Transposes.dense {m : DenseMatrix Extended} (hm : m.IsReal) : Transposes (dense m) := by
  intro f y hy
  have hlength : y.length = m.cols := hy
  rw [applyTransposedOver, if_pos hlength]
  exact (DenseMatrix.trMulVec_ofCoords hm f).trans (by simp only [coeff, toMatrix]; rfl)

theorem Transposes.diagonal {d : Vec Extended} (hd : Vec.IsReal d) : Transposes (diagonal d) := by
  intro f y hy
  have hproduct := Vec.mul_ofCoords d.length f d.coord
  rw [Vec.ofCoords_coord hd] at hproduct
  have hlength : y.length = (Vec.ofCoords (Operator.diagonal d).rows f).length :=
    hy.trans (Vec.length_ofCoords _ _).symm
  rw [applyTransposedOver, if_pos hlength]
  refine hproduct.trans (congrArg _ (Vec.ofCoords_congr fun j hj ↦ ?_))
  rw [mul_comm]
  exact (sum_diagonal f hj).symm

theorem Transposes.selection {indices : List ℕ} {width : ℕ} {sign : Extended}
    (hsign : sign.IsReal) (h : ∀ i ∈ indices, i < width) :
    Transposes (selection indices width sign) := by
  intro f y hy
  obtain ⟨σ, rfl⟩ := hsign
  have hwidth : y.length = width := hy
  rw [applyTransposedOver, hwidth, Vec.zeros_eq_ofCoords]
  refine (scatter_ofCoords σ indices h f _).trans (congrArg _ (Vec.ofCoords_congr fun j hj ↦ ?_))
  rw [zero_add]
  exact Finset.sum_congr rfl fun i hi ↦ by rw [coeff_selection σ (Finset.mem_range.mp hi) hj]

/-- Every well-formed operator multiplies by the transpose of its dense matrix. -/
theorem WellFormed.transposes {op : Operator Extended} (h : op.WellFormed) (hop : op.IsReal) :
    op.Transposes := by
  induction h with
  | dense m =>
    cases hop with
    | dense hm => exact .dense hm
  | diagonal d =>
    cases hop with
    | diagonal hd => exact .diagonal hd
  | selection sign hindices =>
    cases hop with
    | selection hsign => exact .selection hsign hindices
  | @block heights widths blocks hcontents hcells hdistinct ih =>
    cases hop with
    | block hreals =>
      intro f y hy
      have hwidth : y.length = total widths := hy
      rw [applyTransposedOver, hwidth, Vec.zeros_eq_ofCoords]
      refine (addTransposedBlocks_ofCoords hcells (fun b hb ↦ ih b hb (hreals b hb)) f _).trans
        (congrArg _ (Vec.ofCoords_congr fun j hj ↦ ?_))
      rw [zero_add]
      exact (sum_coeff_block (.block hcontents hcells hdistinct) f hj).symm

theorem applyTransposed_ofCoords {op : Operator Extended} (h : op.WellFormed) (hop : op.IsReal)
    (f : ℕ → ℝ) : op.applyTransposed (Vec.ofCoords op.rows f) =
      .ok (Vec.ofCoords op.cols fun j ↦ ∑ i ∈ Finset.range op.rows, op.coeff i j * f i) :=
  h.transposes hop f _ (Vec.length_zeros _)

theorem trMulVec_toMatrix_ofCoords {op : Operator Extended} (hop : op.IsReal) (f : ℕ → ℝ) :
    op.toMatrix.trMulVec (Vec.ofCoords op.rows f) =
      .ok (Vec.ofCoords op.cols fun j ↦ ∑ i ∈ Finset.range op.rows, op.coeff i j * f i) := by
  have h := DenseMatrix.trMulVec_ofCoords hop.toMatrix f
  rwa [rows_toMatrix, cols_toMatrix] at h

end Operator

end LogBarrier
