import LogBarrier.Proofs.Operator.Shape
import LogBarrier.Proofs.Shape.Linear

/-!
# Lengths of images under operators

A well-formed operator maps every vector of its width to a vector of its height. The blocks of a
grid are put into cells that they fill, so the operator of a grid is well formed.
-/

namespace LogBarrier

variable {α : Type} [Scalar α] {allowed : Fault → Prop}

namespace Operator

variable {op : Operator α} {x y : Vec α} {heights widths : List ℕ}
  {blocks : List (Placed (Operator α))}

theorem ensures_gather (sign : α) {indices : List ℕ} (hindices : ∀ i ∈ indices, i < x.length)
    (hy : indices.length ≤ y.length) :
    Ensures allowed (fun z ↦ z.length = y.length) (gather sign x indices y) := by
  induction indices generalizing y with
  | nil =>
    rw [gather]
    exact Ensures.ok rfl
  | cons i indices ih =>
    obtain _ | ⟨b, y⟩ := y
    · cases hy
    rw [List.forall_mem_cons] at hindices
    rw [gather]
    exact (Vec.ensures_entry hindices.1).bind fun a _ ↦
      (ih hindices.2 (Nat.le_of_succ_le_succ hy)).bind fun z hz ↦
        Ensures.pure (by rw [List.length_cons, hz, List.length_cons])

/-- The operator gives a vector of its height, whatever the output held before. -/
def Answers (allowed : Fault → Prop) (op : Operator α) : Prop :=
  ∀ x y : Vec α, x.length = op.cols → y.length = op.rows →
    Ensures allowed (fun z ↦ z.length = op.rows) (op.applyOver x y)

theorem ensures_addBlock {b : Placed (Operator α)} (hb : FillsCell heights widths b)
    (h : b.content.Answers allowed) (hx : x.length = total widths)
    (hy : y.length = total heights) :
    Ensures allowed (fun z ↦ z.length = total heights) (addBlock heights widths b x y) := by
  have hcol := hb.col_le
  have hrow := hb.row_le
  rw [hb.cols_eq, ← hx] at hcol
  rw [addBlock.eq_def]
  refine (Vec.ensures_slice hcol).bind fun part hpart ↦
    (h part _ (hpart.trans hb.cols_eq.symm) (Vec.length_zeros _)).bind fun image himage ↦ ?_
  rw [← hy]
  exact Vec.ensures_addAt (by rwa [himage, hy])

theorem ensures_addBlocks (hcells : ∀ b ∈ blocks, FillsCell heights widths b)
    (h : ∀ b ∈ blocks, b.content.Answers allowed) (hx : x.length = total widths)
    (hy : y.length = total heights) :
    Ensures allowed (fun z ↦ z.length = total heights) (addBlocks heights widths blocks x y) := by
  induction blocks generalizing y with
  | nil =>
    rw [addBlocks]
    exact Ensures.ok hy
  | cons b blocks ih =>
    rw [List.forall_mem_cons] at hcells h
    rw [addBlocks]
    exact (ensures_addBlock hcells.1 h.1 hx hy).bind fun y' hy' ↦ ih hcells.2 h.2 hy'

theorem WellFormed.answers (h : op.WellFormed) : op.Answers allowed := by
  induction h with
  | dense m =>
    intro x y hx hy
    have hheight : y.length = m.rows := hy
    rw [applyOver, if_pos hheight]
    exact DenseMatrix.ensures_mulVec hx
  | diagonal d =>
    intro x y hx hy
    rw [applyOver, if_pos (hy.trans hx.symm)]
    exact Vec.ensures_mul hx rfl
  | selection sign hindices =>
    intro x y hx hy
    rw [applyOver]
    exact (ensures_gather sign (fun i hi ↦ (hindices i hi).trans_eq hx.symm) hy.ge).mono
      fun z hz ↦ hz.trans hy
  | block hcontents hcells hdistinct ih =>
    intro x y hx hy
    rw [applyOver]
    exact ensures_addBlocks hcells ih hx ((Vec.length_zeros _).trans hy)

theorem ensures_apply (h : op.WellFormed) (hx : x.length = op.cols) :
    Ensures allowed (fun z ↦ z.length = op.rows) (op.apply x) :=
  h.answers x _ hx (Vec.length_zeros _)

omit [Scalar α] in
@[simp] theorem rows_dense (a : DenseMatrix α) : (dense a).rows = a.rows := rfl

omit [Scalar α] in
@[simp] theorem rows_diagonal (d : Vec α) : (diagonal d).rows = d.length := rfl

omit [Scalar α] in
@[simp] theorem cols_diagonal (d : Vec α) : (diagonal d).cols = d.length := rfl

/-- An operator of a given shape, which maps vectors without a fault. -/
structure HasShape (op : Operator α) (m n : ℕ) : Prop where
  wellFormed : op.WellFormed
  rows_eq : op.rows = m
  cols_eq : op.cols = n

theorem HasShape.ensures_apply {m n : ℕ} (h : op.HasShape m n) (hx : x.length = n) :
    Ensures allowed (fun z ↦ z.length = m) (op.apply x) := by
  rw [← h.rows_eq]
  exact Operator.ensures_apply h.wellFormed (hx.trans h.cols_eq.symm)

omit [Scalar α] in
theorem ensures_select {indices : List ℕ} {width : ℕ} (sign : α) (h : ∀ i ∈ indices, i < width) :
    Ensures allowed (fun op ↦ op.HasShape indices.length width) (select indices width sign) := by
  rw [select, Fault.require, if_pos h]
  exact Ensures.ok ⟨.selection sign h, rfl, rfl⟩

end Operator

/-! ## Grids -/

namespace Grid

variable {grid : Grid α} {heights widths : List ℕ} {op : Operator α}

/-- The grid has the given partitions, and its operators fill distinct cells of them. -/
structure Fits (heights widths : List ℕ) (grid : Grid α) : Prop where
  heights_eq : grid.heights = heights
  widths_eq : grid.widths = widths
  wellFormed : grid.toOperator.WellFormed

omit [Scalar α] in
theorem fits_zeros (heights widths : List ℕ) :
    (zeros heights widths : Grid α).Fits heights widths :=
  ⟨rfl, rfl, .block (fun _ hb ↦ (List.not_mem_nil hb).elim) (fun _ hb ↦ (List.not_mem_nil hb).elim)
    .nil⟩

omit [Scalar α] in
theorem forall_mem_replaced {P : Placed (Operator α) → Prop} {blocks : List (Placed (Operator α))}
    {i j : ℕ} (h : ∀ b ∈ blocks, P b) (hop : P ⟨i, j, op⟩) :
    ∀ b ∈ (blocks.filter fun b ↦ !(b.row == i && b.col == j)) ++ [⟨i, j, op⟩], P b := by
  intro b hb
  rcases List.mem_append.mp hb with hb | hb
  · exact h b (List.mem_of_mem_filter hb)
  · rw [List.mem_singleton.mp hb]
    exact hop

omit [Scalar α] in
/-- Blocks in distinct cells are in distinct cells after one of them was replaced. -/
theorem distinct_replaced {blocks : List (Placed (Operator α))}
    (h : blocks.Pairwise fun b c ↦ b.row ≠ c.row ∨ b.col ≠ c.col) (i j : ℕ) (op : Operator α) :
    List.Pairwise (fun b c : Placed (Operator α) ↦ b.row ≠ c.row ∨ b.col ≠ c.col)
      ((blocks.filter fun b ↦ !(b.row == i && b.col == j)) ++ [⟨i, j, op⟩]) := by
  refine List.pairwise_append.mpr ⟨h.filter _, List.pairwise_singleton _ _, fun b hb c hc ↦ ?_⟩
  rw [List.mem_singleton.mp hc]
  have hother := (List.mem_filter.mp hb).2
  rw [Bool.not_eq_true', Bool.and_eq_false_iff, beq_eq_false_iff_ne, beq_eq_false_iff_ne] at hother
  exact hother

omit [Scalar α] in
/-- Putting an operator into a cell that it fills succeeds. It takes the place of the one that was
there. -/
theorem Fits.ensures_place (h : grid.Fits heights widths) {i j : ℕ} (hi : i < heights.length)
    (hj : j < widths.length) (hop : op.HasShape (heights.getD i 0) (widths.getD j 0)) :
    Ensures allowed (Fits heights widths) (grid.place i j op) := by
  obtain ⟨rfl, rfl, hgrid⟩ := h
  rw [place, Fault.require, if_pos ⟨hi, hj⟩]
  change Ensures allowed _ (Fault.blockShape.require _ >>= _)
  rw [Fault.require, if_pos ⟨hop.rows_eq, hop.cols_eq⟩]
  refine Ensures.ok ⟨rfl, rfl, ?_⟩
  cases hgrid with
  | block hcontents hcells hdistinct =>
    exact .block (forall_mem_replaced (P := fun b ↦ b.content.WellFormed) hcontents hop.wellFormed)
      (forall_mem_replaced hcells ⟨hop.rows_eq, hop.cols_eq⟩) (distinct_replaced hdistinct i j op)

omit [Scalar α] in
theorem Fits.toOperator (h : grid.Fits heights widths) :
    grid.toOperator.HasShape (Operator.total heights) (Operator.total widths) :=
  ⟨h.wellFormed, congrArg Operator.total h.heights_eq, congrArg Operator.total h.widths_eq⟩

omit [Scalar α] in
theorem getD_map_of_mem_zipIdx {ops : List (Operator α)} (f : Operator α → ℕ)
    {entry : Operator α × ℕ} (h : entry ∈ ops.zipIdx) :
    entry.2 < (ops.map f).length ∧ (ops.map f).getD entry.2 0 = f entry.1 := by
  have hentry : (ops.map f)[entry.2]? = some (f entry.1) := by
    rw [List.getElem?_map, List.mk_mem_zipIdx_iff_getElem?.mp h]
    rfl
  refine ⟨(List.getElem?_eq_some_iff.mp hentry).1, ?_⟩
  rw [List.getD_eq_getElem?_getD, hentry]
  rfl

omit [Scalar α] in
theorem ensures_stack {width : ℕ} {ops : List (Operator α)}
    (hops : ∀ op ∈ ops, op.WellFormed ∧ op.cols = width) :
    Ensures allowed (Fits (ops.map Operator.rows) [width]) (stack width ops) := by
  refine Ensures.foldlM (fits_zeros _ _) fun grid hgrid entry hentry ↦ ?_
  obtain ⟨hi, hrows⟩ := getD_map_of_mem_zipIdx Operator.rows hentry
  obtain ⟨hwell, hcols⟩ := hops _ (List.fst_mem_of_mem_zipIdx hentry)
  exact hgrid.ensures_place hi Nat.one_pos ⟨hwell, hrows.symm, hcols⟩

omit [Scalar α] in
theorem ensures_blockDiagonal {ops : List (Operator α)} (hops : ∀ op ∈ ops, op.WellFormed) :
    Ensures allowed (Fits (ops.map Operator.rows) (ops.map Operator.cols)) (blockDiagonal ops) := by
  refine Ensures.foldlM (fits_zeros _ _) fun grid hgrid entry hentry ↦ ?_
  obtain ⟨hi, hrows⟩ := getD_map_of_mem_zipIdx Operator.rows hentry
  obtain ⟨hj, hcols⟩ := getD_map_of_mem_zipIdx Operator.cols hentry
  exact hgrid.ensures_place hi hj
    ⟨hops _ (List.fst_mem_of_mem_zipIdx hentry), hrows.symm, hcols.symm⟩

end Grid

/-! ## What the constructors build -/

theorem Grid.place_eq {α : Type} {grid : Grid α} {i j : ℕ} {op : Operator α}
    (hi : i < grid.heights.length) (hj : j < grid.widths.length)
    (hrows : op.rows = grid.heights.getD i 0) (hcols : op.cols = grid.widths.getD j 0) :
    grid.place i j op = .ok { grid with
      blocks := grid.blocks.filter (fun b ↦ !(b.row == i && b.col == j)) ++ [⟨i, j, op⟩] } := by
  rw [place, Fault.require, if_pos ⟨hi, hj⟩, ok_bind, Fault.require, if_pos ⟨hrows, hcols⟩, ok_bind]
  rfl

/-- Operators that are put into the rows from number `k` on do not replace earlier ones. -/
theorem Grid.foldlM_place_eq {α : Type} {heights : List ℕ} {width k : ℕ}
    {ops : List (Operator α)} {blocks : List (Placed (Operator α))}
    (hheights : heights.drop k = ops.map Operator.rows) (hcols : ∀ op ∈ ops, op.cols = width)
    (hrows : ∀ b ∈ blocks, b.row < k) :
    (ops.zipIdx k).foldlM (fun grid (op, i) ↦ grid.place i 0 op)
        (⟨heights, [width], blocks⟩ : Grid α)
      = .ok ⟨heights, [width], blocks ++ (ops.zipIdx k).map fun (op, i) ↦ ⟨i, 0, op⟩⟩ := by
  induction ops generalizing k blocks with
  | nil =>
    rw [List.zipIdx_nil, List.foldlM_nil, List.map_nil, List.append_nil]
    rfl
  | cons op ops ih =>
    rw [List.map_cons] at hheights
    rw [List.forall_mem_cons] at hcols
    have hk : heights[k]? = some op.rows := by
      rw [← Nat.add_zero k, ← List.getElem?_drop, hheights]
      rfl
    -- All earlier blocks are in other rows, so none of them is replaced.
    have hkeep : blocks.filter (fun b ↦ !(b.row == k && b.col == 0)) = blocks :=
      List.filter_eq_self.mpr fun b hb ↦ by
        rw [beq_false_of_ne (hrows b hb).ne, Bool.false_and]
        rfl
    have hplace : (⟨heights, [width], blocks⟩ : Grid α).place k 0 op =
        .ok ⟨heights, [width], blocks ++ [⟨k, 0, op⟩]⟩ := by
      rw [Grid.place_eq (List.getElem?_eq_some_iff.mp hk).1 Nat.one_pos
        (by rw [List.getD_eq_getElem?_getD, hk]; rfl) hcols.1, hkeep]
    rw [List.zipIdx_cons, List.foldlM_cons]
    dsimp only
    rw [hplace, ok_bind, ih ?_ hcols.2 ?_, List.map_cons, List.append_assoc, List.singleton_append]
    · rw [← List.drop_drop, hheights, List.drop_one, List.tail_cons]
    · intro b hb
      rcases List.mem_append.mp hb with hb | hb
      · exact Nat.lt_succ_of_lt (hrows b hb)
      · rw [List.mem_singleton.mp hb]
        exact Nat.lt_succ_self k

/-- Operators of one width are put below each other in their order. -/
theorem Grid.stack_eq {α : Type} {width : ℕ} {ops : List (Operator α)}
    (hcols : ∀ op ∈ ops, op.cols = width) : Grid.stack width ops =
      .ok ⟨ops.map Operator.rows, [width], ops.zipIdx.map fun (op, i) ↦ ⟨i, 0, op⟩⟩ := by
  rw [stack, zeros, foldlM_place_eq rfl hcols fun _ hb ↦ (List.not_mem_nil hb).elim,
    List.nil_append]

theorem Grid.stack_eq_error {α : Type} {width : ℕ} {op : Operator α} (ops : List (Operator α))
    (h : op.cols ≠ width) : Grid.stack width (op :: ops) = .error .blockShape := by
  have hplace : (Grid.zeros ((op :: ops).map Operator.rows) [width] : Grid α).place 0 0 op =
      .error .blockShape := by
    rw [place, Fault.require, if_pos ⟨Nat.succ_pos _, Nat.one_pos⟩, ok_bind, Fault.require,
      if_neg fun hshape ↦ h hshape.2]
    rfl
  rw [stack, List.zipIdx_cons, List.foldlM_cons]
  dsimp only
  rw [hplace]
  rfl

theorem Operator.select_eq {α : Type} [Scalar α] {indices : List ℕ} {width : ℕ} (sign : α)
    (h : ∀ i ∈ indices, i < width) :
    Operator.select indices width sign = .ok (.selection indices width sign) := by
  rw [select, Fault.require, if_pos h]
  rfl

end LogBarrier
