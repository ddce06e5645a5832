import LogBarrier.Proofs.Exact.Euclidean
import LogBarrier.Proofs.Operator.Dense

/-!
# Cells of a grid

A grid is a finite map from cells to operators. Operators are put into its cells in any order, and
some of them replace others. What remains is the operator that was put into each cell last.

## Two readings of the blocks

The dense matrix is written block by block, so of two blocks in one cell the later one would be
seen. An application adds up the images of all blocks, so it would see both. The readings agree
because putting an operator into a cell removes the one that was there.
-/

namespace LogBarrier

open Extended

/-! ## The last entry of a cell -/

namespace Placed

variable {β : Type}

/-- What was put last into the cell in row `i` and column `j`. -/
def lastAt (placements : List (Placed β)) (i j : ℕ) : Option β :=
  (placements.filter fun p ↦ p.row == i && p.col == j).getLast?.map content

theorem lastAt_append (ps qs : List (Placed β)) (i j : ℕ) :
    lastAt (ps ++ qs) i j = (lastAt qs i j).or (lastAt ps i j) := by
  rw [lastAt, List.filter_append, List.getLast?_append, Option.map_or]
  rfl

theorem isAt_iff {p : Placed β} {i j : ℕ} :
    (p.row == i && p.col == j) = true ↔ p.row = i ∧ p.col = j := by
  rw [Bool.and_eq_true, beq_iff_eq, beq_iff_eq]

theorem lastAt_singleton (p : Placed β) (i j : ℕ) :
    lastAt [p] i j = if p.row = i ∧ p.col = j then some p.content else none := by
  rw [lastAt, List.filter_singleton]
  by_cases h : p.row = i ∧ p.col = j
  · rw [if_pos h, isAt_iff.mpr h]
    rfl
  · rw [if_neg h, Bool.eq_false_iff.mpr (mt isAt_iff.mp h)]
    rfl

theorem lastAt_cons (p : Placed β) (ps : List (Placed β)) (i j : ℕ) : lastAt (p :: ps) i j =
    (lastAt ps i j).or (if p.row = i ∧ p.col = j then some p.content else none) := by
  rw [← List.singleton_append, lastAt_append, lastAt_singleton]

theorem lastAt_concat (ps : List (Placed β)) (p : Placed β) (i j : ℕ) : lastAt (ps ++ [p]) i j =
    if p.row = i ∧ p.col = j then some p.content else lastAt ps i j := by
  rw [lastAt_append, lastAt_singleton]
  split_ifs <;> rfl

theorem lastAt_filter (ps : List (Placed β)) {i j i' j' : ℕ} (h : ¬(i = i' ∧ j = j')) :
    lastAt (ps.filter fun p ↦ !(p.row == i && p.col == j)) i' j' = lastAt ps i' j' := by
  rw [lastAt, List.filter_filter]
  refine congrArg (fun l ↦ Option.map content (List.getLast? l)) (List.filter_congr fun p _ ↦ ?_)
  by_cases hp : p.row = i' ∧ p.col = j'
  · have hother : (p.row == i && p.col == j) = false :=
      Bool.eq_false_iff.mpr fun hpij ↦ h ⟨(isAt_iff.mp hpij).1.symm.trans hp.1,
        (isAt_iff.mp hpij).2.symm.trans hp.2⟩
    rw [hother, Bool.not_false, Bool.and_true]
  · rw [Bool.eq_false_iff.mpr (mt isAt_iff.mp hp), Bool.false_and]

/-- Operators that are put into one row after the other. -/
def inRows (col : ℕ → ℕ) (contents : List β) : List (Placed β) :=
  contents.zipIdx.map fun (content, i) ↦ ⟨i, col i, content⟩

theorem inRows_concat (col : ℕ → ℕ) (contents : List β) (content : β) :
    inRows col (contents ++ [content]) =
      inRows col contents ++ [⟨contents.length, col contents.length, content⟩] := by
  rw [inRows, List.zipIdx_append, List.map_append, Nat.zero_add]
  rfl

theorem lastAt_inRows (col : ℕ → ℕ) (contents : List β) (i j : ℕ) :
    lastAt (inRows col contents) i j = if col i = j then contents[i]? else none := by
  induction contents using List.reverseRecOn with
  | nil => rw [List.getElem?_nil, ite_self]; rfl
  | append_singleton contents content ih =>
    rw [inRows_concat, lastAt_concat, ih]
    by_cases hi : contents.length = i
    · subst hi
      rw [List.getElem?_concat_length, List.getElem?_eq_none le_rfl, ite_self]
      exact if_congr (and_iff_right rfl) rfl rfl
    · rw [if_neg fun h ↦ hi h.1]
      refine if_congr Iff.rfl ?_ rfl
      rcases lt_or_gt_of_ne hi with hlt | hgt
      · rw [List.getElem?_eq_none hlt.le, List.getElem?_eq_none]
        rw [List.length_append, List.length_singleton]
        omega
      · rw [List.getElem?_append_left hgt]

end Placed

/-! ## Filling a grid -/

namespace Grid

variable {α : Type} {heights widths : List ℕ} {placements : List (Placed (Operator α))}
  {grid grid' : Grid α} {op : Operator α} {i j : ℕ}

/-- The grid after operators were put into its cells, one after the other. -/
def ofPlacements (heights widths : List ℕ) (placements : List (Placed (Operator α))) :
    Except Fault (Grid α) :=
  placements.foldlM (fun grid p ↦ grid.place p.row p.col p.content) (zeros heights widths)

/-- The cell exists, and the operator fills it. -/
structure HasCell (heights widths : List ℕ) (p : Placed (Operator α)) : Prop where
  row_lt : p.row < heights.length
  col_lt : p.col < widths.length
  fills : Operator.FillsCell heights widths p

/-- The grid holds in each cell what was put there last, and at most one operator in each cell. -/
structure Records (heights widths : List ℕ) (placements : List (Placed (Operator α)))
    (grid : Grid α) : Prop where
  heights_eq : grid.heights = heights
  widths_eq : grid.widths = widths
  fills : ∀ b ∈ grid.blocks, Operator.FillsCell heights widths b
  distinct : grid.blocks.Pairwise fun b c ↦ b.row ≠ c.row ∨ b.col ≠ c.col
  lastAt_eq : ∀ i j, Placed.lastAt grid.blocks i j = Placed.lastAt placements i j

theorem ofPlacements_concat (heights widths : List ℕ) (placements : List (Placed (Operator α)))
    (p : Placed (Operator α)) : ofPlacements heights widths (placements ++ [p]) =
      ofPlacements heights widths placements >>= fun grid ↦ grid.place p.row p.col p.content := by
  rw [ofPlacements, List.foldlM_append]
  refine bind_congr fun grid ↦ ?_
  rw [List.foldlM_cons]
  exact bind_pure _

theorem records_zeros (heights widths : List ℕ) :
    (zeros heights widths : Grid α).Records heights widths [] where
  heights_eq := rfl
  widths_eq := rfl
  fills _ hb := (List.not_mem_nil hb).elim
  distinct := .nil
  lastAt_eq _ _ := rfl

theorem Records.hasCell (h : grid.Records heights widths placements)
    (hplace : grid.place i j op = .ok grid') : HasCell heights widths ⟨i, j, op⟩ := by
  obtain ⟨⟨hi, hj⟩, hrows, hcols⟩ := place_eq_ok hplace
  rw [h.heights_eq] at hi hrows
  rw [h.widths_eq] at hj hcols
  exact ⟨hi, hj, hrows, hcols⟩

theorem Records.exists_place (h : grid.Records heights widths placements)
    (hcell : HasCell heights widths ⟨i, j, op⟩) : ∃ grid', grid.place i j op = .ok grid' := by
  obtain ⟨rfl, rfl, -, -, -⟩ := h
  exact ⟨_, place_eq hcell.row_lt hcell.col_lt hcell.fills.rows_eq hcell.fills.cols_eq⟩

/-- An operator that is put into a cell takes the place of the one that was there, and the other
cells stay as they are. -/
theorem Records.place (h : grid.Records heights widths placements)
    (hplace : grid.place i j op = .ok grid') :
    grid'.Records heights widths (placements ++ [⟨i, j, op⟩]) := by
  have hcell := h.hasCell hplace
  obtain ⟨rfl, rfl, hfills, hdistinct, hlast⟩ := h
  rw [place_eq hcell.row_lt hcell.col_lt hcell.fills.rows_eq hcell.fills.cols_eq] at hplace
  cases hplace
  constructor
  case heights_eq => rfl
  case widths_eq => rfl
  case fills => exact forall_mem_replaced hfills hcell.fills
  case distinct => exact distinct_replaced hdistinct i j op
  case lastAt_eq =>
    intro i' j'
    rw [Placed.lastAt_concat, Placed.lastAt_concat]
    split_ifs with hsame
    · rfl
    · rw [Placed.lastAt_filter _ hsame, hlast]

/-- A grid that was filled holds what was put last into each cell. -/
theorem records_of_ofPlacements (h : ofPlacements heights widths placements = .ok grid) :
    grid.Records heights widths placements := by
  induction placements using List.reverseRecOn generalizing grid with
  | nil =>
    cases h
    exact records_zeros heights widths
  | append_singleton placements p ih =>
    rw [ofPlacements_concat] at h
    obtain ⟨before, hbefore, hplace⟩ := bind_eq_ok_iff.mp h
    exact (ih hbefore).place hplace

theorem exists_ofPlacements_iff : (∃ grid, ofPlacements heights widths placements = .ok grid) ↔
    ∀ p ∈ placements, HasCell heights widths p := by
  induction placements using List.reverseRecOn with
  | nil => exact iff_of_true ⟨_, rfl⟩ fun p hp ↦ (List.not_mem_nil hp).elim
  | append_singleton placements p ih =>
    rw [ofPlacements_concat, List.forall_mem_append, List.forall_mem_singleton, ← ih]
    constructor
    · rintro ⟨grid', h⟩
      obtain ⟨grid, hgrid, hplace⟩ := bind_eq_ok_iff.mp h
      exact ⟨⟨grid, hgrid⟩, (records_of_ofPlacements hgrid).hasCell hplace⟩
    · rintro ⟨⟨grid, hgrid⟩, hcell⟩
      rw [hgrid, ok_bind]
      exact (records_of_ofPlacements hgrid).exists_place hcell

end Grid

/-! ## Cells of the dense matrix -/

section Dense

variable {α : Type} [Scalar α]

namespace Operator

variable {heights widths : List ℕ} {m k : DenseMatrix α}

theorem exists_part {sizes : List ℕ} {n : ℕ} (h : n < total sizes) :
    ∃ i r, r < sizes.getD i 0 ∧ offset sizes i + r = n := by
  induction sizes generalizing n with
  | nil => exact (Nat.not_lt_zero n h).elim
  | cons size sizes ih =>
    rw [total_cons] at h
    rcases lt_or_ge n size with hlt | hge
    · exact ⟨0, n, hlt, Nat.zero_add n⟩
    · obtain ⟨i, r, hr, hn⟩ := ih (n := n - size) (by omega)
      refine ⟨i + 1, r, hr, ?_⟩
      rw [offset, List.take_succ_cons, total_cons]
      rw [offset] at hn
      omega

def cell (heights widths : List ℕ) (m : DenseMatrix α) (i j : ℕ) : DenseMatrix α :=
  DenseMatrix.ofFn (heights.getD i 0) (widths.getD j 0) fun r c ↦
    m.entry (offset heights i + r) (offset widths j + c)

theorem entry_cell (m : DenseMatrix α) {i j r c : ℕ} (hr : r < heights.getD i 0)
    (hc : c < widths.getD j 0) : (cell heights widths m i j).entry r c =
      m.entry (offset heights i + r) (offset widths j + c) :=
  DenseMatrix.entry_ofFn _ hr hc

/-- The matrix has the totals of the partitions as its shape. -/
structure IsPartitioned (heights widths : List ℕ) (m : DenseMatrix α) : Prop where
  rows_eq : m.rows = total heights
  cols_eq : m.cols = total widths

omit [Scalar α] in
theorem row_lt {i r : ℕ} (hr : r < heights.getD i 0) : offset heights i + r < total heights :=
  (Nat.add_lt_add_left hr _).trans_le (offset_add_le_sum heights i)

theorem ext_cells (hm : IsPartitioned heights widths m) (hk : IsPartitioned heights widths k)
    (h : ∀ i j, cell heights widths m i j = cell heights widths k i j) : m = k := by
  refine DenseMatrix.ext_entry (hm.rows_eq.trans hk.rows_eq.symm)
    (hm.cols_eq.trans hk.cols_eq.symm) fun n hn n' hn' ↦ ?_
  obtain ⟨i, r, hr, rfl⟩ := exists_part (hm.rows_eq ▸ hn)
  obtain ⟨j, c, hc, rfl⟩ := exists_part (hm.cols_eq ▸ hn')
  rw [← entry_cell m hr hc, h, entry_cell k hr hc]

theorem cell_zeros (heights widths : List ℕ) (i j : ℕ) :
    cell heights widths (DenseMatrix.zeros (total heights) (total widths) : DenseMatrix α) i j =
      DenseMatrix.zeros (heights.getD i 0) (widths.getD j 0) :=
  DenseMatrix.ofFn_congr fun _ hr _ hc ↦ DenseMatrix.entry_ofFn _ (row_lt hr) (row_lt hc)

theorem IsPartitioned.writeBlock (hm : IsPartitioned heights widths m)
    (b : Placed (Operator α)) :
    IsPartitioned heights widths (writeBlock heights widths b m) := by
  rw [writeBlock_eq]
  exact ⟨hm.rows_eq, hm.cols_eq⟩

theorem cell_writeBlock {b : Placed (Operator α)} (hb : FillsCell heights widths b)
    (hm : IsPartitioned heights widths m) (i j : ℕ) :
    cell heights widths (writeBlock heights widths b m) i j =
      if b.row = i ∧ b.col = j then b.content.toMatrix else cell heights widths m i j := by
  have hwritten : ∀ r < heights.getD i 0, ∀ c < widths.getD j 0,
      (writeBlock heights widths b m).entry (offset heights i + r) (offset widths j + c) =
        if Covers heights widths b (offset heights i + r) (offset widths j + c) then
          b.content.toMatrix.entry (offset heights i + r - offset heights b.row)
            (offset widths j + c - offset widths b.col)
        else m.entry (offset heights i + r) (offset widths j + c) := by
    intro r hr c hc
    rw [writeBlock_eq, DenseMatrix.setBlock, DenseMatrix.entry_ofFn _ (hm.rows_eq ▸ row_lt hr)
      (hm.cols_eq ▸ row_lt hc), rows_toMatrix, cols_toMatrix]
    exact if_congr (by rw [Covers, and_assoc]) rfl rfl
  by_cases hcell : b.row = i ∧ b.col = j
  · obtain ⟨rfl, rfl⟩ := hcell
    rw [if_pos ⟨rfl, rfl⟩, ← DenseMatrix.ofFn_entry b.content.toMatrix, rows_toMatrix,
      cols_toMatrix, hb.rows_eq, hb.cols_eq]
    refine DenseMatrix.ofFn_congr fun r hr c hc ↦ ?_
    rw [hwritten r hr c hc, if_pos, Nat.add_sub_cancel_left, Nat.add_sub_cancel_left]
    rw [Covers, hb.rows_eq, hb.cols_eq]
    omega
  · rw [if_neg hcell]
    refine DenseMatrix.ofFn_congr fun r hr c hc ↦ ?_
    rw [hwritten r hr c hc, if_neg]
    rw [Covers, hb.rows_eq, hb.cols_eq]
    rintro ⟨hrow, hcol⟩
    rcases not_and_or.mp hcell with hne | hne
    · exact disjoint_parts heights hne hrow ⟨Nat.le_add_right _ _, Nat.add_lt_add_left hr _⟩
    · exact disjoint_parts widths hne hcol ⟨Nat.le_add_right _ _, Nat.add_lt_add_left hc _⟩

/-- Of the blocks that are written into a cell, the last one is seen. -/
theorem cell_writeBlocks {blocks : List (Placed (Operator α))}
    (hblocks : ∀ b ∈ blocks, FillsCell heights widths b) (hm : IsPartitioned heights widths m)
    (i j : ℕ) : cell heights widths (writeBlocks heights widths blocks m) i j =
      (Placed.lastAt blocks i j).elim (cell heights widths m i j) toMatrix := by
  induction blocks generalizing m with
  | nil =>
    rw [writeBlocks]
    rfl
  | cons b blocks ih =>
    rw [List.forall_mem_cons] at hblocks
    rw [writeBlocks, ih hblocks.2 (hm.writeBlock b), cell_writeBlock hblocks.1 hm,
      Placed.lastAt_cons]
    cases Placed.lastAt blocks i j with
    | some op => rfl
    | none =>
      rw [Option.none_or, Option.elim_none]
      split_ifs <;> rfl

end Operator

namespace Grid

variable {heights widths : List ℕ} {placements placements' : List (Placed (Operator α))}
  {grid grid' : Grid α} {op : Operator α} {i j : ℕ}

theorem Records.toMatrix_eq (h : grid.Records heights widths placements) :
    grid.toOperator.toMatrix = Operator.writeBlocks heights widths grid.blocks
      (DenseMatrix.zeros (Operator.total heights) (Operator.total widths)) := by
  obtain ⟨rfl, rfl, -, -, -⟩ := h
  rw [toOperator, Operator.toMatrix]

theorem Records.isPartitioned (h : grid.Records heights widths placements) :
    Operator.IsPartitioned heights widths grid.toOperator.toMatrix := by
  obtain ⟨rfl, rfl, -, -, -⟩ := h
  exact ⟨Operator.rows_toMatrix _, Operator.cols_toMatrix _⟩

/-- In a cell of the dense matrix stands the operator that was put there last, or zeros. -/
theorem Records.cell_eq (h : grid.Records heights widths placements) (i j : ℕ) :
    Operator.cell heights widths grid.toOperator.toMatrix i j = (Placed.lastAt placements i j).elim
      (DenseMatrix.zeros (heights.getD i 0) (widths.getD j 0)) Operator.toMatrix := by
  rw [h.toMatrix_eq, Operator.cell_writeBlocks h.fills ⟨rfl, rfl⟩, h.lastAt_eq,
    Operator.cell_zeros]

/-- Grids with the same last operators have the same dense matrix. -/
theorem Records.toMatrix_congr (h : grid.Records heights widths placements)
    (h' : grid'.Records heights widths placements')
    (hlast : ∀ i j, Placed.lastAt placements i j = Placed.lastAt placements' i j) :
    grid.toOperator.toMatrix = grid'.toOperator.toMatrix := by
  refine Operator.ext_cells h.isPartitioned h'.isPartitioned fun i j ↦ ?_
  rw [h.cell_eq, h'.cell_eq, hlast]

/-- The index of a row and a column lies in a cell of the partitions. -/
def InCell (heights widths : List ℕ) (i j r c : ℕ) : Prop :=
  (Operator.offset heights i ≤ r ∧ r < Operator.offset heights i + heights.getD i 0)
  ∧ (Operator.offset widths j ≤ c ∧ c < Operator.offset widths j + widths.getD j 0)

/-- Outside of the cell that is filled, no entry of the dense matrix changes. -/
theorem Records.entry_place (h : grid.Records heights widths placements)
    (hplace : grid.place i j op = .ok grid') {r c : ℕ} (hr : r < Operator.total heights)
    (hc : c < Operator.total widths) (hout : ¬InCell heights widths i j r c) :
    grid'.toOperator.toMatrix.entry r c = grid.toOperator.toMatrix.entry r c := by
  obtain ⟨i', r', hr', rfl⟩ := Operator.exists_part hr
  obtain ⟨j', c', hc', rfl⟩ := Operator.exists_part hc
  have hother : ¬(i = i' ∧ j = j') := by
    rintro ⟨rfl, rfl⟩
    exact hout ⟨⟨Nat.le_add_right _ _, Nat.add_lt_add_left hr' _⟩,
      ⟨Nat.le_add_right _ _, Nat.add_lt_add_left hc' _⟩⟩
  have hcell : Operator.cell heights widths grid'.toOperator.toMatrix i' j' =
      Operator.cell heights widths grid.toOperator.toMatrix i' j' := by
    rw [(h.place hplace).cell_eq, h.cell_eq, Placed.lastAt_concat, if_neg hother]
  rw [← Operator.entry_cell _ hr' hc', hcell, Operator.entry_cell _ hr' hc']

end Grid

end Dense

/-! ## Application -/

namespace Grid

variable {heights widths : List ℕ}

section Applied

variable {placements placements' : List (Placed (Operator Extended))} {grid grid' : Grid Extended}

theorem isReal_of_ofPlacements (h : ofPlacements heights widths placements = .ok grid)
    (hreal : ∀ p ∈ placements, p.content.IsReal) : grid.toOperator.IsReal := by
  have hyields : Yields Grid.IsReal (ofPlacements heights widths placements) :=
    Ensures.foldlM (isReal_zeros _ _) fun _ hgrid p hp ↦ yields_place hgrid (hreal p hp) _ _
  exact (hyields.of_eq_ok h).toOperator

/-- Grids with the same last operators map vectors in the same way, in both directions. -/
theorem apply_congr (h : ofPlacements heights widths placements = .ok grid)
    (h' : ofPlacements heights widths placements' = .ok grid')
    (hcontents : ∀ p ∈ placements ++ placements', p.content.Constructed ∧ p.content.IsReal)
    (hlast : ∀ i j, Placed.lastAt placements i j = Placed.lastAt placements' i j) :
    (∀ x, Vec.InSpace (Operator.total widths) x →
      ∃ u, grid.toOperator.apply x = .ok u ∧ grid'.toOperator.apply x = .ok u)
    ∧ ∀ y, Vec.InSpace (Operator.total heights) y →
      ∃ w, grid.toOperator.applyTransposed y = .ok w
        ∧ grid'.toOperator.applyTransposed y = .ok w := by
  rw [List.forall_mem_append] at hcontents
  obtain ⟨hcontents, hcontents'⟩ := hcontents
  have hwell := (Operator.Constructed.grid (fun p hp ↦ (hcontents p hp).1) h).wellFormed
  have hwell' := (Operator.Constructed.grid (fun p hp ↦ (hcontents' p hp).1) h').wellFormed
  have hreal := isReal_of_ofPlacements h fun p hp ↦ (hcontents p hp).2
  have hreal' := isReal_of_ofPlacements h' fun p hp ↦ (hcontents' p hp).2
  have hmatrix := (records_of_ofPlacements h).toMatrix_congr (records_of_ofPlacements h') hlast
  obtain ⟨rfl, rfl, -, -, -⟩ := records_of_ofPlacements h
  obtain ⟨hheights, hwidths, -, -, -⟩ := records_of_ofPlacements h'
  constructor
  · intro x hx
    obtain ⟨u, hu, happly, -⟩ := Operator.apply_eq_mulVec hwell hreal hx.isReal hx.length_eq
    obtain ⟨u', hu', happly', -⟩ := Operator.apply_eq_mulVec hwell' hreal' hx.isReal
      (hx.length_eq.trans (congrArg Operator.total hwidths.symm))
    rw [hmatrix, hu', Except.ok.injEq] at hu
    exact ⟨u, happly, hu ▸ happly'⟩
  · intro y hy
    obtain ⟨w, hw, happly, -⟩ :=
      Operator.applyTransposed_eq_mulVec hwell hreal hy.isReal hy.length_eq
    obtain ⟨w', hw', happly', -⟩ := Operator.applyTransposed_eq_mulVec hwell' hreal' hy.isReal
      (hy.length_eq.trans (congrArg Operator.total hheights.symm))
    rw [hmatrix, hw', Except.ok.injEq] at hw
    exact ⟨w, happly, hw ▸ happly'⟩

end Applied

/-! ## Stacks and block diagonals -/

section Rows

variable {α : Type} {width : ℕ} {ops : List (Operator α)}

theorem stack_eq_ofPlacements (width : ℕ) (ops : List (Operator α)) : stack width ops =
    ofPlacements (ops.map Operator.rows) [width] (Placed.inRows (fun _ ↦ 0) ops) := by
  rw [ofPlacements, Placed.inRows, List.foldlM_map]
  rfl

theorem blockDiagonal_eq_ofPlacements (ops : List (Operator α)) : blockDiagonal ops =
    ofPlacements (ops.map Operator.rows) (ops.map Operator.cols) (Placed.inRows id ops) := by
  rw [ofPlacements, Placed.inRows, List.foldlM_map]
  rfl

/-- Operators can be put below each other exactly if they have the width of the stack. -/
theorem exists_stack_iff : (∃ grid, stack width ops = .ok grid) ↔ ∀ op ∈ ops, op.cols = width := by
  rw [stack_eq_ofPlacements, exists_ofPlacements_iff, Placed.inRows, List.forall_mem_map]
  constructor
  · intro h op hop
    obtain ⟨i, hi⟩ := List.mem_iff_getElem?.mp hop
    exact (h (op, i) (List.mk_mem_zipIdx_iff_getElem?.mpr hi)).fills.cols_eq
  · intro h entry hentry
    obtain ⟨hi, hrows⟩ := getD_map_of_mem_zipIdx Operator.rows hentry
    exact ⟨hi, Nat.one_pos, hrows.symm, h _ (List.fst_mem_of_mem_zipIdx hentry)⟩

theorem exists_blockDiagonal (ops : List (Operator α)) :
    ∃ grid, blockDiagonal ops = .ok grid := by
  rw [blockDiagonal_eq_ofPlacements, exists_ofPlacements_iff, Placed.inRows, List.forall_mem_map]
  intro entry hentry
  obtain ⟨hi, hrows⟩ := getD_map_of_mem_zipIdx Operator.rows hentry
  obtain ⟨hj, hcols⟩ := getD_map_of_mem_zipIdx Operator.cols hentry
  exact ⟨hi, hj, hrows.symm, hcols.symm⟩

variable [Scalar α]

theorem stacked {grid : Grid α} (h : stack width ops = .ok grid) :
    grid.toOperator.toMatrix.cols = width
      ∧ grid.toOperator.toMatrix.rowList = (ops.map fun op ↦ op.toMatrix.rowList).flatten := by
  have hcols := exists_stack_iff.mp ⟨grid, h⟩
  rw [stack_eq hcols] at h
  cases h
  refine ⟨?_, Operator.rowList_stack hcols⟩
  rw [Operator.cols_toMatrix]
  exact Nat.add_zero width

/-- The cells along the diagonal are filled with the operators, and the others are zero. -/
theorem cell_blockDiagonal {grid : Grid α} (h : blockDiagonal ops = .ok grid) (i k : ℕ) :
    Operator.cell (ops.map Operator.rows) (ops.map Operator.cols) grid.toOperator.toMatrix i k =
      (if i = k then ops[i]? else none).elim
        (DenseMatrix.zeros ((ops.map Operator.rows).getD i 0) ((ops.map Operator.cols).getD k 0))
        Operator.toMatrix := by
  rw [blockDiagonal_eq_ofPlacements] at h
  rw [(records_of_ofPlacements h).cell_eq, Placed.lastAt_inRows]
  rfl

end Rows

/-! ## The whole -/

/-- **A grid is a finite map from cells to operators.** After any sequence of operators was put into
its cells, no cell holds two operators, each cell of the dense matrix is that of the operator that
was put there last, or zero, and putting one more operator into a cell changes no entry outside of
it. So sequences with the same last operators have the same dense matrix, and they map real vectors
in the same way. A stack has the rows of its operators in their order, and a block diagonal has
zeros outside of the cells of its operators. -/
theorem is_finite_map {α : Type} [Scalar α] (heights widths : List ℕ) :
    (∀ (placements : List (Placed (Operator α))) (grid : Grid α),
      ofPlacements heights widths placements = .ok grid →
        (grid.blocks.Pairwise fun b c ↦ b.row ≠ c.row ∨ b.col ≠ c.col)
        ∧ (∀ i j, Operator.cell heights widths grid.toOperator.toMatrix i j =
          (Placed.lastAt placements i j).elim
            (DenseMatrix.zeros (heights.getD i 0) (widths.getD j 0)) Operator.toMatrix)
        ∧ ∀ i j op grid', grid.place i j op = .ok grid' →
          ∀ r < Operator.total heights, ∀ c < Operator.total widths,
            ¬InCell heights widths i j r c →
              grid'.toOperator.toMatrix.entry r c = grid.toOperator.toMatrix.entry r c)
    ∧ (∀ (placements placements' : List (Placed (Operator α))) (grid grid' : Grid α),
      ofPlacements heights widths placements = .ok grid →
      ofPlacements heights widths placements' = .ok grid' →
      (∀ i j, Placed.lastAt placements i j = Placed.lastAt placements' i j) →
        grid.toOperator.toMatrix = grid'.toOperator.toMatrix)
    ∧ (∀ (placements placements' : List (Placed (Operator Extended))) (grid grid' : Grid Extended),
      ofPlacements heights widths placements = .ok grid →
      ofPlacements heights widths placements' = .ok grid' →
      (∀ p ∈ placements ++ placements', p.content.Constructed ∧ p.content.IsReal) →
      (∀ i j, Placed.lastAt placements i j = Placed.lastAt placements' i j) →
        (∀ x, Vec.InSpace (Operator.total widths) x →
          ∃ u, grid.toOperator.apply x = .ok u ∧ grid'.toOperator.apply x = .ok u)
        ∧ ∀ y, Vec.InSpace (Operator.total heights) y →
          ∃ w, grid.toOperator.applyTransposed y = .ok w
            ∧ grid'.toOperator.applyTransposed y = .ok w)
    ∧ (∀ (width : ℕ) (ops : List (Operator α)),
      ((∃ grid, stack width ops = .ok grid) ↔ ∀ op ∈ ops, op.cols = width)
      ∧ ∀ grid, stack width ops = .ok grid → grid.toOperator.toMatrix.cols = width
        ∧ grid.toOperator.toMatrix.rowList = (ops.map fun op ↦ op.toMatrix.rowList).flatten)
    ∧ ∀ ops : List (Operator α), ∃ grid, blockDiagonal ops = .ok grid
      ∧ (grid.toOperator.toMatrix.rows = Operator.total (ops.map Operator.rows)
        ∧ grid.toOperator.toMatrix.cols = Operator.total (ops.map Operator.cols))
      ∧ ∀ i k, Operator.cell (ops.map Operator.rows) (ops.map Operator.cols)
          grid.toOperator.toMatrix i k =
        (if i = k then ops[i]? else none).elim
          (DenseMatrix.zeros ((ops.map Operator.rows).getD i 0) ((ops.map Operator.cols).getD k 0))
          Operator.toMatrix := by
  refine ⟨?_, ?_, ?_, ?_, ?_⟩
  · intro placements grid h
    have hrecords := records_of_ofPlacements h
    refine ⟨hrecords.distinct, hrecords.cell_eq, ?_⟩
    intro i j op grid' hplace r hr c hc hout
    exact hrecords.entry_place hplace hr hc hout
  · intro placements placements' grid grid' h h' hlast
    exact (records_of_ofPlacements h).toMatrix_congr (records_of_ofPlacements h') hlast
  · intro placements placements' grid grid' h h' hcontents hlast
    exact apply_congr h h' hcontents hlast
  · intro width ops
    exact ⟨exists_stack_iff, fun grid h ↦ stacked h⟩
  · intro ops
    obtain ⟨grid, h⟩ := exists_blockDiagonal ops
    have hshape := (records_of_ofPlacements (blockDiagonal_eq_ofPlacements ops ▸ h)).isPartitioned
    exact ⟨grid, h, ⟨hshape.rows_eq, hshape.cols_eq⟩, cell_blockDiagonal h⟩

/-! ## Two orders -/

noncomputable def twice : Operator Extended := .selection [0, 0] 1 (real (-1))

/-- A column of ones, an operator without columns next to it, and then a selection that takes the
place of the ones. -/
noncomputable def overwriting : List (Placed (Operator Extended)) :=
  [⟨0, 0, .dense (DenseMatrix.ofFn 2 1 fun _ _ ↦ 1)⟩, ⟨0, 1, .dense (DenseMatrix.zeros 2 0)⟩,
    ⟨0, 0, twice⟩]

noncomputable def direct : List (Placed (Operator Extended)) :=
  [⟨0, 0, twice⟩, ⟨0, 1, .dense (DenseMatrix.zeros 2 0)⟩]

/-- What was replaced leaves no trace. -/
theorem overwriting_as_direct : ∃ grid grid', ofPlacements [2] [1, 0] overwriting = .ok grid
    ∧ ofPlacements [2] [1, 0] direct = .ok grid'
    ∧ grid.toOperator.toMatrix = grid'.toOperator.toMatrix
    ∧ grid.toOperator.apply [real 3] = .ok [real (-3), real (-3)] := by
  have hlast : ∀ i j, Placed.lastAt overwriting i j = Placed.lastAt direct i j := by
    intro i j
    rw [overwriting, direct, Placed.lastAt_cons]
    simp only [Placed.lastAt_cons]
    split_ifs <;> first | rfl | omega
  have hselection : Operator.select [0, 0] 1 (real (-1)) = .ok twice := rfl
  have hcontents : ∀ p ∈ overwriting ++ direct, p.content.Constructed ∧ p.content.IsReal := by
    simp only [overwriting, direct, List.cons_append, List.nil_append, List.forall_mem_cons]
    have hones : (DenseMatrix.ofFn 2 1 fun _ _ ↦ (1 : Extended)).IsReal :=
      DenseMatrix.isReal_ofFn fun _ _ ↦ isReal_one
    have hzeros := DenseMatrix.isReal_zeros 2 0
    have htwice : twice.Constructed ∧ twice.IsReal :=
      ⟨.select hselection, .selection (isReal_real (-1))⟩
    exact ⟨⟨.dense _, .dense hones⟩, ⟨.dense _, .dense hzeros⟩, htwice, htwice,
      ⟨.dense _, .dense hzeros⟩, fun _ h ↦ (List.not_mem_nil h).elim⟩
  have hdirect : ofPlacements [2] [1, 0] direct = .ok ⟨[2], [1, 0], direct⟩ := rfl
  obtain ⟨-, hmatrix, happly, -⟩ := is_finite_map (α := Extended) [2] [1, 0]
  obtain ⟨u, hu, hu'⟩ := (happly _ _ _ _ rfl hdirect hcontents hlast).1 [real 3]
    ⟨Vec.IsReal.replicate (isReal_real 3) 1, rfl⟩
  have himage : Except.ok [real (0 + -1 * 3 + 0), real (0 + -1 * 3 + 0)] =
      (.ok u : Except Fault (Vec Extended)) := hu'
  cases himage
  refine ⟨_, _, rfl, hdirect, hmatrix _ _ _ _ rfl hdirect hlast, hu.trans ?_⟩
  norm_num

end Grid

end LogBarrier
