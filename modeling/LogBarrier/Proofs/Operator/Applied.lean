import LogBarrier.Proofs.Operator.Transposed

/-!
# Applied operators

A well-formed operator multiplies a vector by its dense matrix. A row of a block operator meets the
blocks of one row of cells only, so its product with a vector is the sum of what these blocks make
of their parts of the vector.
-/

namespace LogBarrier

open Extended

theorem sum_map_ite {β : Type} (P : β → Prop) [DecidablePred P] (g : β → ℝ) (l : List β) :
    (l.map fun b ↦ if P b then g b else 0).sum = ((l.filter P).map g).sum := by
  induction l with
  | nil => rfl
  | cons b l ih =>
    rw [List.map_cons, List.sum_cons, ih, List.filter_cons]
    simp only [decide_eq_true_eq]
    split_ifs
    · rw [List.map_cons, List.sum_cons]
    · rw [zero_add]

namespace Operator

variable {heights widths : List ℕ} {blocks : List (Placed (Operator Extended))} {i j : ℕ}
  {f g : ℕ → ℝ}

/-! ## Block operators -/

/-- What a block contributes to entry `i` of the image of a vector under the whole. -/
noncomputable def appliedPart (heights widths : List ℕ) (b : Placed (Operator Extended))
    (f : ℕ → ℝ) (i : ℕ) : ℝ :=
  if offset heights b.row ≤ i ∧ i < offset heights b.row + b.content.rows then
    ∑ j ∈ Finset.range b.content.cols,
      b.content.coeff (i - offset heights b.row) j * f (offset widths b.col + j)
  else 0

theorem sum_row_cellCoeff {b : Placed (Operator Extended)} (hb : FillsCell heights widths b)
    (f : ℕ → ℝ) (i : ℕ) : ∑ j ∈ Finset.range (total widths), cellCoeff heights widths b i j * f j =
      appliedPart heights widths b f i := by
  by_cases hi : offset heights b.row ≤ i ∧ i < offset heights b.row + b.content.rows
  · rw [appliedPart, if_pos hi]
    have hterm : ∀ j, cellCoeff heights widths b i j * f j =
        if offset widths b.col ≤ j ∧ j < offset widths b.col + b.content.cols then
          b.content.coeff (i - offset heights b.row) (j - offset widths b.col) * f j else 0 := by
      intro j
      rw [cellCoeff]
      split_ifs with h₁ h₂ h₃
      · rfl
      · exact absurd h₁.2 h₂
      · exact absurd ⟨hi, h₃⟩ h₁
      · exact zero_mul _
    simp only [hterm]
    rw [sum_range_interval hb.col_le]
    exact Finset.sum_congr rfl fun j _ ↦ by rw [Nat.add_sub_cancel_left]
  · rw [appliedPart, if_neg hi]
    exact Finset.sum_eq_zero fun j _ ↦ by
      rw [cellCoeff, if_neg fun h ↦ hi h.1, zero_mul]

theorem sum_row_coeff_block (h : WellFormed (block heights widths blocks)) (f : ℕ → ℝ)
    (hi : i < total heights) :
    ∑ j ∈ Finset.range (total widths), (block heights widths blocks).coeff i j * f j =
      (blocks.map fun b ↦ appliedPart heights widths b f i).sum := by
  have hterm : ∀ j ∈ Finset.range (total widths), (block heights widths blocks).coeff i j * f j =
      (blocks.map fun b ↦ cellCoeff heights widths b i j * f j).sum := by
    intro j hj
    rw [coeff_block h hi (Finset.mem_range.mp hj), List.sum_map_mul_right]
  rw [Finset.sum_congr rfl hterm, sum_range_list_sum]
  exact congrArg List.sum (List.map_congr_left fun b hb ↦ sum_row_cellCoeff (h.fillsCell b hb) f i)

/-- A row of the dense matrix meets the blocks in its row of cells only. -/
theorem sum_row_of_cell (h : WellFormed (block heights widths blocks)) (f : ℕ → ℝ) {r : ℕ}
    (hi : i < heights.getD r 0) : ∑ j ∈ Finset.range (total widths),
        (block heights widths blocks).coeff (offset heights r + i) j * f j =
      ((blocks.filter (·.row = r)).map fun b ↦ ∑ j ∈ Finset.range b.content.cols,
        b.content.coeff i j * f (offset widths b.col + j)).sum := by
  have hlt : offset heights r + i < total heights :=
    lt_of_lt_of_le (Nat.add_lt_add_left hi _) (offset_add_le_sum heights r)
  rw [sum_row_coeff_block h f hlt, ← sum_map_ite]
  refine congrArg List.sum (List.map_congr_left fun b hb ↦ ?_)
  have hrows := (h.fillsCell b hb).rows_eq
  rw [appliedPart]
  by_cases hr : b.row = r
  · subst hr
    rw [if_pos ⟨Nat.le_add_right _ _, by rw [hrows]; exact Nat.add_lt_add_left hi _⟩, if_pos rfl,
      Nat.add_sub_cancel_left]
  · rw [if_neg hr, if_neg]
    rw [hrows]
    exact disjoint_parts heights (Ne.symm hr) ⟨Nat.le_add_right _ _, Nat.add_lt_add_left hi _⟩

/-- A row of cells with one block, in the first column, is that block. -/
theorem sum_row_of_singleton (h : WellFormed (block heights widths blocks)) (r start : ℕ)
    {op : Operator Extended} {width : ℕ} (hblock : blocks.filter (·.row = r) = [⟨r, 0, op⟩])
    (hstart : offset heights r = start) (hcols : op.cols = width) (f : ℕ → ℝ) (hi : i < op.rows) :
    ∑ j ∈ Finset.range (total widths), (block heights widths blocks).coeff (start + i) j * f j =
      ∑ j ∈ Finset.range width, op.coeff i j * f j := by
  have hmem : (⟨r, 0, op⟩ : Placed (Operator Extended)) ∈ blocks.filter (·.row = r) := by
    rw [hblock]
    exact List.mem_singleton_self _
  have hcell := h.fillsCell _ (List.mem_filter.mp hmem).1
  have hoffset : offset widths 0 = 0 := by rw [offset, List.take_zero, total_nil]
  rw [← hstart, sum_row_of_cell h f (hcell.rows_eq ▸ hi), hblock, List.map_cons, List.map_nil,
    List.sum_cons, List.sum_nil, add_zero]
  dsimp only
  rw [hoffset, hcols]
  simp only [zero_add]

def Applies (op : Operator Extended) : Prop :=
  ∀ (f : ℕ → ℝ) (y : Vec Extended), y.length = op.rows →
    op.applyOver (Vec.ofCoords op.cols f) y =
      .ok (Vec.ofCoords op.rows fun i ↦ ∑ j ∈ Finset.range op.cols, op.coeff i j * f j)

theorem addBlock_ofCoords {b : Placed (Operator Extended)} (hb : FillsCell heights widths b)
    (h : Applies b.content) (f g : ℕ → ℝ) :
    addBlock heights widths b (Vec.ofCoords (total widths) f) (Vec.ofCoords (total heights) g) =
      .ok (Vec.ofCoords (total heights) fun i ↦ g i + appliedPart heights widths b f i) := by
  rw [addBlock.eq_def]
  dsimp only
  rw [Vec.slice_ofCoords (hb.cols_eq ▸ hb.col_le), ← hb.cols_eq, ok_bind,
    h _ _ (Vec.length_zeros _), ok_bind]
  exact Vec.addAt_ofCoords hb.row_le _ g

theorem addBlocks_ofCoords (hcells : ∀ b ∈ blocks, FillsCell heights widths b)
    (h : ∀ b ∈ blocks, Applies b.content) (f g : ℕ → ℝ) :
    addBlocks heights widths blocks (Vec.ofCoords (total widths) f)
        (Vec.ofCoords (total heights) g) =
      .ok (Vec.ofCoords (total heights) fun i ↦
        g i + (blocks.map fun b ↦ appliedPart heights widths b f i).sum) := by
  induction blocks generalizing g with
  | nil =>
    rw [addBlocks]
    exact congrArg _ (Vec.ofCoords_congr fun i _ ↦ (add_zero _).symm)
  | cons b blocks ih =>
    rw [List.forall_mem_cons] at hcells h
    rw [addBlocks, addBlock_ofCoords hcells.1 h.1, ok_bind, ih hcells.2 h.2]
    exact congrArg _ (Vec.ofCoords_congr fun i _ ↦ by rw [List.map_cons, List.sum_cons, add_assoc])

/-! ## Selections and diagonals -/

theorem sum_row_selection {indices : List ℕ} {width k : ℕ} (σ : ℝ) (f : ℕ → ℝ)
    (hk : indices[k]? = some i) (hi : i < width) :
    ∑ j ∈ Finset.range width, (selection indices width (real σ)).coeff k j * f j = σ * f i := by
  have hlt : k < indices.length := (List.getElem?_eq_some_iff.mp hk).1
  have hterm : ∀ j ∈ Finset.range width,
      (selection indices width (real σ)).coeff k j * f j = if i = j then σ * f i else 0 := by
    intro j hj
    rw [coeff_selection σ hlt (Finset.mem_range.mp hj), hk]
    simp only [Option.some_inj]
    split_ifs with h
    · rw [h]
    · exact zero_mul _
  rw [Finset.sum_congr rfl hterm, Finset.sum_ite_eq, if_pos (Finset.mem_range.mpr hi)]

theorem sum_row_diagonal {d : Vec Extended} (f : ℕ → ℝ) (hi : i < d.length) :
    ∑ j ∈ Finset.range d.length, (diagonal d).coeff i j * f j = d.coord i * f i := by
  have hterm : ∀ j ∈ Finset.range d.length,
      (diagonal d).coeff i j * f j = if i = j then d.coord i * f i else 0 := by
    intro j hj
    rw [coeff_diagonal hi (Finset.mem_range.mp hj)]
    split_ifs with h
    · rw [h]
    · exact zero_mul _
  rw [Finset.sum_congr rfl hterm, Finset.sum_ite_eq, if_pos (Finset.mem_range.mpr hi)]

theorem gather_ofCoords {n : ℕ} (σ : ℝ) (indices : List ℕ) (h : ∀ i ∈ indices, i < n)
    (f : ℕ → ℝ) {y : Vec Extended} (hy : y.length = indices.length) :
    gather (real σ) (Vec.ofCoords n f) indices y =
      .ok (Vec.ofCoords indices.length fun k ↦ σ * f (indices.getD k 0)) := by
  induction indices generalizing y with
  | nil =>
    rw [gather, List.eq_nil_of_length_eq_zero hy]
    rfl
  | cons i indices ih =>
    obtain _ | ⟨b, y⟩ := y
    · cases hy
    rw [List.forall_mem_cons] at h
    rw [gather, Vec.entry, Vec.getElem?_ofCoords h.1, ok_bind, ih h.2 (Nat.succ.inj hy),
      List.length_cons, Vec.ofCoords_succ]
    rfl

/-! ## All operators -/

theorem Applies.dense {m : DenseMatrix Extended} (hm : m.IsReal) : Applies (dense m) := by
  intro f y hy
  have hlength : y.length = m.rows := hy
  rw [applyOver, if_pos hlength]
  exact (DenseMatrix.mulVec_ofCoords hm f).trans (by simp only [coeff, toMatrix]; rfl)

theorem Applies.diagonal {d : Vec Extended} (hd : Vec.IsReal d) : Applies (diagonal d) := by
  intro f y hy
  have hproduct := Vec.mul_ofCoords d.length f d.coord
  rw [Vec.ofCoords_coord hd] at hproduct
  have hlength : y.length = (Vec.ofCoords (Operator.diagonal d).cols f).length :=
    hy.trans (Vec.length_ofCoords _ _).symm
  rw [applyOver, if_pos hlength]
  refine hproduct.trans (congrArg _ (Vec.ofCoords_congr fun i hi ↦ ?_))
  rw [mul_comm]
  exact (sum_row_diagonal f hi).symm

theorem Applies.selection {indices : List ℕ} {width : ℕ} {sign : Extended}
    (hsign : sign.IsReal) (h : ∀ i ∈ indices, i < width) :
    Applies (selection indices width sign) := by
  intro f y hy
  obtain ⟨σ, rfl⟩ := hsign
  rw [applyOver]
  refine (gather_ofCoords σ indices h f hy).trans (congrArg _ (Vec.ofCoords_congr fun k hk ↦ ?_))
  have hindex : indices[k]? = some (indices.getD k 0) := by
    rw [List.getD_eq_getElem _ _ hk, List.getElem?_eq_getElem hk]
  exact (sum_row_selection σ f hindex (h _ (List.mem_of_getElem? hindex))).symm

/-- Every well-formed operator multiplies by its dense matrix. -/
theorem WellFormed.applies {op : Operator Extended} (h : op.WellFormed) (hop : op.IsReal) :
    op.Applies := by
  induction h with
  | dense m =>
    cases hop with
    | dense hm => exact .dense hm
  | diagonal d =>
    cases hop with
    | diagonal hd => exact .diagonal hd
  | selection sign hindices =>
    cases hop with
    | selection hsign => exact .selection hsign hindices
  | @block heights widths blocks hcontents hcells hdistinct ih =>
    cases hop with
    | block hreals =>
      intro f y hy
      have hheight : y.length = total heights := hy
      rw [applyOver, hheight, Vec.zeros_eq_ofCoords]
      refine (addBlocks_ofCoords hcells (fun b hb ↦ ih b hb (hreals b hb)) f _).trans
        (congrArg _ (Vec.ofCoords_congr fun i hi ↦ ?_))
      rw [zero_add]
      exact (sum_row_coeff_block (.block hcontents hcells hdistinct) f hi).symm

theorem apply_ofCoords {op : Operator Extended} (h : op.WellFormed) (hop : op.IsReal)
    (f : ℕ → ℝ) : op.apply (Vec.ofCoords op.cols f) =
      .ok (Vec.ofCoords op.rows fun i ↦ ∑ j ∈ Finset.range op.cols, op.coeff i j * f j) :=
  h.applies hop f _ (Vec.length_zeros _)

end Operator

end LogBarrier
