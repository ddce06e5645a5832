import LogBarrier.Proofs.Exact.Coordinates

/-!
# Rows of dense matrices

A dense matrix is stored by columns, but constraints are rows. A matrix of known width is determined
by the list of its rows, and a matrix of real numbers maps a vector to its inner products with them.

The rows of a matrix after a block of its width was written over it are those above the block, those
of the block and those below it.
-/

namespace LogBarrier

open Extended

theorem map_getD_range {β : Type} (l : List β) (b : β) :
    (List.range l.length).map (l.getD · b) = l := by
  refine List.ext_getElem (by rw [List.length_map, List.length_range]) fun i _ hi ↦ ?_
  rw [List.getElem_map, List.getElem_range, List.getD_eq_getElem _ _ hi]

namespace DenseMatrix

section Rows

variable {α : Type} [Scalar α] {m k : DenseMatrix α}

/-- The rows from top to bottom. -/
def rowList (m : DenseMatrix α) : List (Vec α) := (List.range m.rows).map m.row

@[simp] theorem length_rowList (m : DenseMatrix α) : m.rowList.length = m.rows := by
  rw [rowList, List.length_map, List.length_range]

theorem getElem?_rowList {i : ℕ} (h : i < m.rows) : m.rowList[i]? = some (m.row i) := by
  rw [rowList, List.getElem?_map, List.getElem?_range h]
  rfl

theorem length_of_mem_rowList {r : Vec α} (h : r ∈ m.rowList) : r.length = m.cols := by
  obtain ⟨i, -, rfl⟩ := List.mem_map.mp h
  rw [row, List.length_map, m.length_columns]

omit [Scalar α] in
theorem ofFn_congr {rows cols : ℕ} {f g : ℕ → ℕ → α} (h : ∀ i < rows, ∀ j < cols, f i j = g i j) :
    ofFn rows cols f = ofFn rows cols g := by
  have hcolumns : ((List.range cols).map fun j ↦ (List.range rows).map fun i ↦ f i j) =
      (List.range cols).map fun j ↦ (List.range rows).map fun i ↦ g i j :=
    List.map_congr_left fun j hj ↦ List.map_congr_left fun i hi ↦
      h i (List.mem_range.mp hi) j (List.mem_range.mp hj)
  simp only [ofFn, hcolumns]

theorem ofFn_entry (m : DenseMatrix α) : ofFn m.rows m.cols m.entry = m := by
  have hcolumns : ((List.range m.cols).map fun j ↦ (List.range m.rows).map fun i ↦ m.entry i j) =
      m.columns := by
    rw [← m.length_columns]
    conv_rhs => rw [← map_getD_range m.columns []]
    refine List.map_congr_left fun j hj ↦ ?_
    have hlt := List.mem_range.mp hj
    rw [← m.length_of_mem_columns _ (List.getElem_mem hlt), ← List.getD_eq_getElem _ [] hlt]
    exact map_getD_range _ 0
  cases m
  simp only [ofFn, hcolumns]

theorem entry_ofFn {rows cols i j : ℕ} (f : ℕ → ℕ → α) (hi : i < rows) (hj : j < cols) :
    (ofFn rows cols f).entry i j = f i j := by
  simp only [entry, ofFn, List.getD_eq_getElem?_getD, List.getElem?_map, List.getElem?_range hj,
    Option.map_some, Option.getD_some, List.getElem?_range hi]

theorem row_eq (m : DenseMatrix α) (i : ℕ) : m.row i = (List.range m.cols).map (m.entry i) := by
  rw [row, ← map_getD_range m.columns [], List.map_map, m.length_columns]
  rfl

theorem rowList_ofFn (rows cols : ℕ) (f : ℕ → ℕ → α) :
    (ofFn rows cols f).rowList = (List.range rows).map fun i ↦ (List.range cols).map (f i) := by
  refine List.map_congr_left fun i hi ↦ ?_
  rw [row_eq]
  exact List.map_congr_left fun j hj ↦
    entry_ofFn f (List.mem_range.mp hi) (List.mem_range.mp hj)

theorem ext_entry (hrows : m.rows = k.rows) (hcols : m.cols = k.cols)
    (h : ∀ i < m.rows, ∀ j < m.cols, m.entry i j = k.entry i j) : m = k := by
  rw [← ofFn_entry m, ← ofFn_entry k, ← hrows, ← hcols]
  exact ofFn_congr h

/-- A matrix of known width is determined by its rows. -/
theorem ext_rowList (hcols : m.cols = k.cols) (h : m.rowList = k.rowList) : m = k := by
  have hrows : m.rows = k.rows := by rw [← length_rowList, h, length_rowList]
  refine ext_entry hrows hcols fun i hi j hj ↦ ?_
  have hrow : some (m.row i) = some (k.row i) := by
    rw [← getElem?_rowList hi, h, getElem?_rowList (hrows ▸ hi)]
  rw [Option.some.injEq, row_eq, row_eq] at hrow
  have hget := congrArg (·[j]?) hrow
  simpa only [List.getElem?_map, List.getElem?_range hj, List.getElem?_range (hcols ▸ hj),
    Option.map_some, Option.some.injEq] using hget

theorem rowList_ofRows {cols : ℕ} {rows : List (Vec α)} (h : ∀ r ∈ rows, r.length = cols) :
    (ofRows cols rows).rowList = rows := by
  rw [ofRows, rowList_ofFn]
  conv_rhs => rw [← map_getD_range rows []]
  refine List.map_congr_left fun i hi ↦ ?_
  have hlt := List.mem_range.mp hi
  rw [← h _ (List.getElem_mem hlt), ← List.getD_eq_getElem _ [] hlt]
  exact map_getD_range _ 0

theorem row_setBlock {block : DenseMatrix α} {top i : ℕ} (hcols : block.cols = m.cols)
    (hi : i < m.rows) : (m.setBlock top 0 block).row i =
      if top ≤ i ∧ i < top + block.rows then block.row (i - top) else m.row i := by
  have hentry : ∀ j < m.cols, (m.setBlock top 0 block).entry i j =
      if top ≤ i ∧ i < top + block.rows then block.entry (i - top) j else m.entry i j := by
    intro j hj
    rw [setBlock, entry_ofFn _ hi hj, Nat.zero_add, Nat.sub_zero, hcols]
    exact if_congr (by simp [hj]) rfl rfl
  rw [row_eq, row_eq, row_eq, hcols]
  have hmap := List.map_congr_left fun j hj ↦ hentry j (List.mem_range.mp hj)
  refine hmap.trans ?_
  split_ifs <;> rfl

/-- The rows after a block of the whole width was written over the matrix. -/
theorem rowList_setBlock {block : DenseMatrix α} {top : ℕ} (hcols : block.cols = m.cols)
    (hrows : top + block.rows ≤ m.rows) : (m.setBlock top 0 block).rowList =
      m.rowList.take top ++ block.rowList ++ m.rowList.drop (top + block.rows) := by
  have hsplit : List.range m.rows = List.range top ++ ((List.range block.rows).map (top + ·)
      ++ (List.range (m.rows - (top + block.rows))).map (top + block.rows + ·)) := by
    rw [← List.append_assoc, ← List.range_add, ← List.range_add, Nat.add_sub_cancel' hrows]
  have hrow : (m.setBlock top 0 block).rowList = (List.range m.rows).map fun i ↦
      if top ≤ i ∧ i < top + block.rows then block.row (i - top) else m.row i :=
    List.map_congr_left fun i hi ↦ row_setBlock hcols (List.mem_range.mp hi)
  rw [hrow, hsplit, List.map_append, List.map_append, List.map_map, List.map_map, List.append_assoc]
  congr 1
  · rw [rowList, ← List.map_take, List.take_range, Nat.min_eq_left (by omega)]
    exact List.map_congr_left fun i hi ↦ if_neg fun h ↦ by
      have := List.mem_range.mp hi
      omega
  congr 1
  · exact List.map_congr_left fun i hi ↦ by
      have hlt := List.mem_range.mp hi
      rw [Function.comp_apply, if_pos ⟨Nat.le_add_right top i, by omega⟩, Nat.add_sub_cancel_left]
  · rw [rowList, ← List.map_drop, hsplit, ← List.append_assoc, List.drop_left' (by simp),
      List.map_map]
    exact List.map_congr_left fun i _ ↦ by
      rw [Function.comp_apply, if_neg (by omega)]
      rfl

end Rows

/-! ## Products -/

variable {m : DenseMatrix Extended} {x : Vec Extended}

theorem mulVec_eq_rowList (hm : m.IsReal) (hx : Vec.IsReal x) (hlength : x.length = m.cols) :
    m.mulVec x = .ok (m.rowList.map (Vec.dotSum · x)) := by
  have hproduct := mulVec_ofCoords hm x.coord
  rw [Vec.ofCoords_coord_of_length hx hlength] at hproduct
  rw [hproduct, rowList, List.map_map, Vec.ofCoords]
  refine congrArg _ (List.map_congr_left fun i _ ↦ ?_)
  have hrow : m.row i = Vec.ofCoords m.cols (m.coeff i) := by
    rw [row_eq]
    exact List.map_congr_left fun j _ ↦ (hm.entry i j).eq
  rw [Function.comp_apply, hrow, ← Vec.dotSum_ofCoords, Vec.ofCoords_coord_of_length hx hlength]

end DenseMatrix

end LogBarrier
