import LogBarrier.Proofs.Exact.Factorization
import LogBarrier.Proofs.Operator.Applied
import LogBarrier.Proofs.Shape.Operator

/-!
# Operators from the constructors

The constructors check what they are given, and an operator that they have let through is well
formed: its selections stay within their widths, and its blocks fill distinct cells. Well-formed
operators map vectors as their dense matrices do, in both directions.

A stack and a block diagonal operator are grids that were filled in a certain order.

## Two dense views

Where nothing better is known, the dense matrix is found by mapping the unit vectors, each image
being written over the one before. A block operator copies the dense matrices of its blocks instead.
Both ways lead to the same columns, because an application leaves nothing of what its output held.
-/

namespace LogBarrier

open Extended

variable {α : Type}

/-! ## What the constructors let through -/

section Checks

variable {grid grid' : Grid α} {op : Operator α} {heights widths : List ℕ} {i j : ℕ}

theorem Grid.place_eq_ok (h : grid.place i j op = .ok grid') :
    (i < grid.heights.length ∧ j < grid.widths.length)
      ∧ op.rows = grid.heights.getD i 0 ∧ op.cols = grid.widths.getD j 0 := by
  obtain ⟨_, hcell, h⟩ := bind_eq_ok_iff.mp h
  obtain ⟨_, hshape, -⟩ := bind_eq_ok_iff.mp h
  refine ⟨?_, ?_⟩
  · by_contra hnot
    rw [Fault.require, if_neg hnot] at hcell
    cases hcell
  · by_contra hnot
    rw [Fault.require, if_neg hnot] at hshape
    cases hshape

theorem Grid.Fits.of_place (hgrid : grid.Fits heights widths) (hop : op.WellFormed)
    (h : grid.place i j op = .ok grid') : grid'.Fits heights widths := by
  obtain ⟨⟨hi, hj⟩, hrows, hcols⟩ := place_eq_ok h
  rw [hgrid.heights_eq] at hi hrows
  rw [hgrid.widths_eq] at hj hcols
  have hplaced : Defined (Fits heights widths) (grid.place i j op) :=
    hgrid.ensures_place hi hj ⟨hop, hrows, hcols⟩
  exact hplaced.of_eq_ok h

theorem Grid.Fits.of_foldlM {β : Type} {entries : List β} {row col : β → ℕ}
    {content : β → Operator α} (hgrid : grid.Fits heights widths)
    (hcontents : ∀ entry ∈ entries, (content entry).WellFormed)
    (h : entries.foldlM (fun grid entry ↦ grid.place (row entry) (col entry) (content entry)) grid =
      .ok grid') : grid'.Fits heights widths := by
  induction entries generalizing grid with
  | nil =>
    cases h
    exact hgrid
  | cons entry entries ih =>
    rw [List.forall_mem_cons] at hcontents
    rw [List.foldlM_cons] at h
    obtain ⟨placed, hplaced, h⟩ := bind_eq_ok_iff.mp h
    exact ih (hgrid.of_place hcontents.1 hplaced) hcontents.2 h

theorem Operator.select_eq_ok {indices : List ℕ} {width : ℕ} {sign : α}
    (h : Operator.select indices width sign = .ok op) :
    (∀ i ∈ indices, i < width) ∧ op = .selection indices width sign := by
  obtain ⟨_, hindices, h⟩ := bind_eq_ok_iff.mp h
  cases h
  refine ⟨?_, rfl⟩
  by_contra hnot
  rw [Fault.require, if_neg hnot] at hindices
  cases hindices

end Checks

/-! ## Constructed operators -/

namespace Operator

/-- The operators that are built by the constructors, none of whose checks has failed. A grid starts
out without operators, and any number of them is put into it. -/
inductive Constructed : Operator α → Prop
  | dense (m : DenseMatrix α) : Constructed (dense m)
  | diagonal (d : Vec α) : Constructed (diagonal d)
  | select {indices : List ℕ} {width : ℕ} {sign : α} {op : Operator α}
    (built : select indices width sign = .ok op) : Constructed op
  | grid {heights widths : List ℕ} {placements : List (Placed (Operator α))} {grid : Grid α}
    (contents : ∀ p ∈ placements, Constructed p.content)
    (built : placements.foldlM (fun grid p ↦ grid.place p.row p.col p.content)
      (Grid.zeros heights widths) = .ok grid) : Constructed grid.toOperator

section Constructors

variable {op : Operator α} {ops : List (Operator α)} {grid : Grid α}

theorem Constructed.wellFormed (h : op.Constructed) : op.WellFormed := by
  induction h with
  | dense m => exact .dense m
  | diagonal d => exact .diagonal d
  | select built =>
    obtain ⟨hindices, rfl⟩ := select_eq_ok built
    exact .selection _ hindices
  | grid contents built ih => exact ((Grid.fits_zeros _ _).of_foldlM ih built).wellFormed

/-- Operators that are put into one cell after the other. -/
theorem Constructed.of_zipIdx {heights widths : List ℕ} (row col : ℕ → ℕ)
    (hops : ∀ op ∈ ops, op.Constructed)
    (h : ops.zipIdx.foldlM (fun grid (op, i) ↦ grid.place (row i) (col i) op)
      (Grid.zeros heights widths) = .ok grid) : grid.toOperator.Constructed := by
  have hbuilt : (ops.zipIdx.map fun (op, i) ↦ (⟨row i, col i, op⟩ : Placed (Operator α))).foldlM
      (fun grid p ↦ grid.place p.row p.col p.content) (Grid.zeros heights widths) = .ok grid := by
    rw [List.foldlM_map]
    exact h
  refine .grid (fun p hp ↦ ?_) hbuilt
  obtain ⟨entry, hentry, rfl⟩ := List.mem_map.mp hp
  exact hops entry.1 (List.fst_mem_of_mem_zipIdx hentry)

theorem Constructed.stack {width : ℕ} (hops : ∀ op ∈ ops, op.Constructed)
    (h : Grid.stack width ops = .ok grid) : grid.toOperator.Constructed :=
  .of_zipIdx id (fun _ ↦ 0) hops h

end Constructors

/-! ## Dense matrices from unit vectors -/

section Units

variable [Scalar α]

def unitVector (n j : ℕ) : Vec α := (Vec.zeros n).set j 1

/-- The images of the unit vectors with the given indices, each written over the one before. -/
def unitImages (op : Operator α) : List ℕ → Vec α → Except Fault (List (Vec α))
  | [], _ => .ok []
  | j :: js, out => do
    let image ← op.applyOver (unitVector op.cols j) out
    return image :: (← unitImages op js image)

end Units

theorem unitVector_eq (n j : ℕ) :
    unitVector n j = Vec.ofCoords n fun i ↦ if j = i then 1 else 0 := by
  rw [unitVector, Vec.zeros_eq_ofCoords, one_eq, Vec.set_ofCoords]

variable {op : Operator Extended}

theorem applyOver_unitVector (h : op.WellFormed) (hop : op.IsReal) {j : ℕ} (hj : j < op.cols)
    {out : Vec Extended} (hout : out.length = op.rows) :
    op.applyOver (unitVector op.cols j) out =
      .ok (Vec.ofCoords op.rows fun i ↦ op.coeff i j) := by
  rw [unitVector_eq, h.applies hop _ out hout]
  refine congrArg _ (Vec.ofCoords_congr fun i _ ↦ ?_)
  simp only [mul_ite, mul_one, mul_zero]
  rw [Finset.sum_ite_eq, if_pos (Finset.mem_range.mpr hj)]

theorem unitImages_eq (h : op.WellFormed) (hop : op.IsReal) {js : List ℕ}
    (hjs : ∀ j ∈ js, j < op.cols) {out : Vec Extended} (hout : out.length = op.rows) :
    op.unitImages js out =
      .ok (js.map fun j ↦ Vec.ofCoords op.rows fun i ↦ op.coeff i j) := by
  induction js generalizing out with
  | nil => rfl
  | cons j js ih =>
    rw [List.forall_mem_cons] at hjs
    rw [unitImages, applyOver_unitVector h hop hjs.1 hout, ok_bind,
      ih hjs.2 (Vec.length_ofCoords _ _)]
    rfl

/-- The images of all unit vectors are the columns of the dense matrix. -/
theorem unitImages_eq_columns (h : op.WellFormed) (hop : op.IsReal) :
    op.unitImages (List.range op.cols) (Vec.zeros op.rows) = .ok op.toMatrix.columns := by
  rw [unitImages_eq h hop (fun _ hj ↦ List.mem_range.mp hj) (Vec.length_zeros _),
    DenseMatrix.columns_eq hop.toMatrix, cols_toMatrix, rows_toMatrix]
  rfl

/-! ## Agreement -/

/-- An operator maps a vector as its dense matrix does, whatever the output held before. -/
theorem apply_eq_mulVec (h : op.WellFormed) (hop : op.IsReal) {x : Vec Extended}
    (hx : Vec.IsReal x) (hlength : x.length = op.cols) :
    ∃ u, op.toMatrix.mulVec x = .ok u ∧ op.apply x = .ok u
      ∧ ∀ out : Vec Extended, out.length = op.rows → op.applyOver x out = .ok u := by
  have hmatrix := DenseMatrix.mulVec_ofCoords hop.toMatrix x.coord
  rw [cols_toMatrix, rows_toMatrix, Vec.ofCoords_coord_of_length hx hlength] at hmatrix
  have happly : ∀ out : Vec Extended, out.length = op.rows → op.applyOver x out =
      .ok (Vec.ofCoords op.rows fun i ↦ ∑ j ∈ Finset.range op.cols, op.coeff i j * x.coord j) := by
    intro out hout
    have himage := h.applies hop x.coord out hout
    rwa [Vec.ofCoords_coord_of_length hx hlength] at himage
  exact ⟨_, hmatrix, happly _ (Vec.length_zeros _), happly⟩

/-- A transposed operator maps a vector as the transpose of the dense matrix does. -/
theorem applyTransposed_eq_mulVec (h : op.WellFormed) (hop : op.IsReal) {y : Vec Extended}
    (hy : Vec.IsReal y) (hlength : y.length = op.rows) :
    ∃ w, op.toMatrix.transpose.mulVec y = .ok w ∧ op.applyTransposed y = .ok w
      ∧ ∀ out : Vec Extended, out.length = op.cols → op.applyTransposedOver y out = .ok w := by
  have hrows : op.toMatrix.transpose.rows = op.cols := cols_toMatrix op
  have hcols : op.toMatrix.transpose.cols = op.rows := rows_toMatrix op
  have hmatrix := DenseMatrix.mulVec_ofCoords hop.toMatrix.transpose y.coord
  rw [hcols, hrows, Vec.ofCoords_coord_of_length hy hlength] at hmatrix
  have hsum : ∀ j < op.cols,
      ∑ i ∈ Finset.range op.rows, op.toMatrix.transpose.coeff j i * y.coord i =
        ∑ i ∈ Finset.range op.rows, op.coeff i j * y.coord i := by
    intro j hj
    refine Finset.sum_congr rfl fun i hi ↦ ?_
    rw [DenseMatrix.coeff_transpose (by rwa [cols_toMatrix])
      (by rw [rows_toMatrix]; exact Finset.mem_range.mp hi), coeff]
  rw [Vec.ofCoords_congr hsum] at hmatrix
  have happly : ∀ out : Vec Extended, out.length = op.cols → op.applyTransposedOver y out =
      .ok (Vec.ofCoords op.cols fun j ↦ ∑ i ∈ Finset.range op.rows, op.coeff i j * y.coord i) := by
    intro out hout
    have himage := h.transposes hop y.coord out hout
    rwa [Vec.ofCoords_coord_of_length hy hlength] at himage
  exact ⟨_, hmatrix, happly _ (Vec.length_zeros _), happly⟩

theorem dot_apply (h : op.WellFormed) (hop : op.IsReal) {x y : Vec Extended} (hx : Vec.IsReal x)
    (hy : Vec.IsReal y) (hcols : x.length = op.cols) (hrows : y.length = op.rows) :
    ∃ u w a, op.apply x = .ok u ∧ op.applyTransposed y = .ok w ∧ Vec.dot u y = .ok a
      ∧ Vec.dot x w = .ok a := by
  have himage := apply_ofCoords h hop x.coord
  have htransposed := applyTransposed_ofCoords h hop y.coord
  rw [Vec.ofCoords_coord_of_length hx hcols] at himage
  rw [Vec.ofCoords_coord_of_length hy hrows] at htransposed
  refine ⟨_, _, _, himage, htransposed, if_pos ?_, (if_pos ?_).trans (congrArg _ ?_)⟩
  · rw [Vec.length_ofCoords, hrows]
  · rw [Vec.length_ofCoords, hcols]
  · conv_lhs => rw [← Vec.ofCoords_coord_of_length hx hcols]
    conv_rhs => rw [← Vec.ofCoords_coord_of_length hy hrows]
    rw [Vec.dotSum_ofCoords, Vec.dotSum_ofCoords]
    -- Both sides are the sum over all entries of the dense matrix.
    simp only [Finset.mul_sum, Finset.sum_mul]
    rw [Finset.sum_comm]
    refine congrArg real (Finset.sum_congr rfl fun i _ ↦ Finset.sum_congr rfl fun j _ ↦ ?_)
    ring

/-- **Representations of an operator.** An operator that the constructors have let through has a
dense matrix of its shape, whose columns are the images of the unit vectors. Applying the operator
or its transpose is multiplying by the dense matrix or its transpose, whatever the output held
before, so the two are adjoint. -/
theorem representations_agree (h : op.Constructed) (hop : op.IsReal) :
    (op.toMatrix.rows = op.rows ∧ op.toMatrix.cols = op.cols)
    ∧ op.unitImages (List.range op.cols) (Vec.zeros op.rows) = .ok op.toMatrix.columns
    ∧ (∀ x : Vec Extended, Vec.IsReal x → x.length = op.cols →
      ∃ u, op.toMatrix.mulVec x = .ok u ∧ op.apply x = .ok u
        ∧ ∀ out : Vec Extended, out.length = op.rows → op.applyOver x out = .ok u)
    ∧ (∀ y : Vec Extended, Vec.IsReal y → y.length = op.rows →
      ∃ w, op.toMatrix.transpose.mulVec y = .ok w ∧ op.applyTransposed y = .ok w
        ∧ ∀ out : Vec Extended, out.length = op.cols → op.applyTransposedOver y out = .ok w)
    ∧ ∀ x y : Vec Extended, Vec.IsReal x → Vec.IsReal y → x.length = op.cols →
      y.length = op.rows → ∃ u w a, op.apply x = .ok u ∧ op.applyTransposed y = .ok w
        ∧ Vec.dot u y = .ok a ∧ Vec.dot x w = .ok a :=
  have hwell := h.wellFormed
  ⟨shape_toMatrix op, unitImages_eq_columns hwell hop,
    fun _ hx hlength ↦ apply_eq_mulVec hwell hop hx hlength,
    fun _ hy hlength ↦ applyTransposed_eq_mulVec hwell hop hy hlength,
    fun _ _ hx hy hcols hrows ↦ dot_apply hwell hop hx hy hcols hrows⟩

/-! ### A nested operator -/

/-- A grid with an empty block column. A column of ones was put into its first cell, and then a
selection that names its only index twice has replaced it. -/
noncomputable def replaced : Grid Extended :=
  ⟨[2], [1, 0], [⟨0, 1, dense (DenseMatrix.zeros 2 0)⟩, ⟨0, 0, selection [0, 0] 1 (real (-1))⟩]⟩

noncomputable def nested : Grid Extended :=
  ⟨[2, 1], [1], [⟨0, 0, replaced.toOperator⟩, ⟨1, 0, diagonal [real 3]⟩]⟩

theorem constructed_replaced : replaced.toOperator.Constructed := by
  have hselection : select [0, 0] 1 (real (-1)) = .ok (selection [0, 0] 1 (real (-1))) := rfl
  have hbuilt : [⟨0, 0, dense (DenseMatrix.ofFn 2 1 fun _ _ ↦ 1)⟩,
      ⟨0, 1, dense (DenseMatrix.zeros 2 0)⟩, ⟨0, 0, selection [0, 0] 1 (real (-1))⟩].foldlM
      (fun grid (p : Placed (Operator Extended)) ↦ grid.place p.row p.col p.content)
      (Grid.zeros [2] [1, 0]) = .ok replaced := rfl
  refine .grid ?_ hbuilt
  simp only [List.forall_mem_cons]
  exact ⟨.dense _, .dense _, .select hselection, fun _ h ↦ (List.not_mem_nil h).elim⟩

theorem constructed_nested : nested.toOperator.Constructed := by
  have hbuilt : Grid.stack 1 [replaced.toOperator, diagonal [real 3]] = .ok nested := rfl
  refine .stack ?_ hbuilt
  simp only [List.forall_mem_cons]
  exact ⟨constructed_replaced, .diagonal _, fun _ h ↦ (List.not_mem_nil h).elim⟩

theorem isReal_nested : nested.toOperator.IsReal := by
  refine .block ?_
  simp only [nested, List.forall_mem_cons]
  refine ⟨.block ?_, .diagonal (Vec.IsReal.replicate (isReal_real 3) 1),
    fun _ h ↦ (List.not_mem_nil h).elim⟩
  simp only [replaced, List.forall_mem_cons]
  exact ⟨.dense (DenseMatrix.isReal_zeros 2 0), .selection (isReal_real (-1)),
    fun _ h ↦ (List.not_mem_nil h).elim⟩

/-- The representations of an operator with two levels of blocks agree. -/
theorem nested_representations_agree :
    nested.toOperator.toMatrix.rows = 3 ∧ nested.toOperator.toMatrix.cols = 1
    ∧ ∃ u, nested.toOperator.toMatrix.mulVec [real 2] = .ok u
      ∧ nested.toOperator.apply [real 2] = .ok u
      ∧ nested.toOperator.applyOver [real 2] [nan, nan, nan] = .ok u := by
  obtain ⟨⟨hrows, hcols⟩, -, happly, -⟩ := representations_agree constructed_nested isReal_nested
  obtain ⟨u, hmatrix, himage, hover⟩ :=
    happly [real 2] (Vec.IsReal.replicate (isReal_real 2) 1) rfl
  exact ⟨hrows, hcols, u, hmatrix, himage, hover _ rfl⟩

end Operator

end LogBarrier
