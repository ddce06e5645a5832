import LogBarrier.Proofs.Barrier.Jacobian
import LogBarrier.Proofs.Operator.Dense
import LogBarrier.Proofs.Shape.Subproblem

/-!
# Bounds as linear inequalities

A finite bound is a linear inequality: `x i ≤ upper i` is `e i · x - upper i ≤ 0`, and
`lower i ≤ x i` is `-(e i) · x + lower i ≤ 0`. So the bounds of a problem can be given as further
rows of its linear inequalities, in the order in which the slack form has them:

```text
a x + b + s = 0               a x + b + s = 0
x - upper + s = 0     and     e x - upper + s = 0     (one row of e for each finite upper bound)
lower - x + s = 0            -e x + lower + s = 0     (one row of e for each finite lower bound)
```

Both problems have the same slacks, the same multipliers and the same functions.

## What the functions read

The values of the constraints are computed in two ways, by subtraction and by an inner product,
which agree over the real numbers. The Jacobian is another operator, with the same dense matrix. All
other functions of the subproblem read the bounds through the number of slacks only.
-/

namespace LogBarrier

open Extended

section Definitions

variable {α : Type} [Scalar α]

/-- The rows of the finite bounds of a box: unit vectors for the upper ones, and negated unit
vectors for the lower ones. -/
def Box.boundRows (box : Box α) (width : ℕ) : List (Vec α) :=
  box.upperBounded.map (Operator.unitVector width)
    ++ box.lowerBounded.map fun i ↦ Vec.neg (Operator.unitVector width i)

def Box.boundOffsets (box : Box α) : Vec α :=
  box.upperBounded.map (fun i ↦ -box.upper.getD i 0) ++ box.lowerBounded.map (box.lower.getD · 0)

def DenseMatrix.withRows (m : DenseMatrix α) (rows : List (Vec α)) : DenseMatrix α :=
  .ofRows m.cols (m.rowList ++ rows)

def Objective.unbounded (objective : Objective α) : Objective α :=
  { objective with domain := .free objective.domain.dim objective.domain.nonempty }

theorem Box.length_boundRows (box : Box α) (width : ℕ) :
    (box.boundRows width).length = box.boundOffsets.length := by
  rw [boundRows, boundOffsets, List.length_append, List.length_append, List.length_map,
    List.length_map, List.length_map, List.length_map]

/-- The linear inequalities with one more of them for each finite bound of a box. -/
def AffineSystem.withBounds (system : AffineSystem α) (box : Box α) : AffineSystem α where
  matrix := system.matrix.withRows (box.boundRows system.matrix.cols)
  offset := system.offset ++ box.boundOffsets
  rows_eq := by
    change (system.matrix.rowList ++ _).length = _
    rw [List.length_append, DenseMatrix.length_rowList, system.rows_eq, Box.length_boundRows,
      List.length_append]

/-- The subproblem whose bounds are given as linear inequalities. -/
def SlackForm.withBoundRows (p : SlackForm α) : SlackForm α :=
  { p with
    objective := p.objective.unbounded
    affineInequality := p.affineInequality.withBounds p.objective.domain }

end Definitions

/-! ## The rows -/

@[simp] theorem Operator.length_unitVector {α : Type} [Scalar α] (n i : ℕ) :
    (unitVector n i : Vec α).length = n := by
  rw [unitVector, List.length_set, Vec.length_zeros]

theorem Box.length_of_mem_boundRows {α : Type} [Scalar α] {box : Box α} {width : ℕ} {r : Vec α}
    (h : r ∈ box.boundRows width) : r.length = width := by
  rcases List.mem_append.mp h with h | h
  · obtain ⟨i, -, rfl⟩ := List.mem_map.mp h
    exact Operator.length_unitVector width i
  · obtain ⟨i, -, rfl⟩ := List.mem_map.mp h
    rw [Vec.length_neg, Operator.length_unitVector]

theorem DenseMatrix.rowList_withRows {α : Type} [Scalar α] {m : DenseMatrix α}
    {rows : List (Vec α)} (h : ∀ r ∈ rows, r.length = m.cols) :
    (m.withRows rows).rowList = m.rowList ++ rows := by
  refine rowList_ofRows fun r hr ↦ ?_
  rcases List.mem_append.mp hr with hr | hr
  · exact length_of_mem_rowList hr
  · exact h r hr

theorem AffineSystem.rowList_withBounds {α : Type} [Scalar α] (system : AffineSystem α)
    (box : Box α) : (system.withBounds box).matrix.rowList =
      system.matrix.rowList ++ box.boundRows system.matrix.cols :=
  DenseMatrix.rowList_withRows fun _ ↦ Box.length_of_mem_boundRows

variable {box : Box Extended} {system : AffineSystem Extended} {x : Vec Extended}

theorem Vec.isReal_unitVector (n i : ℕ) : IsReal (Operator.unitVector n i) := by
  rw [Operator.unitVector_eq]
  exact isReal_ofCoords _ _

theorem Vec.dotSum_unitVector (hx : IsReal x) (i : ℕ) :
    dotSum (Operator.unitVector x.length i) x = x.getD i 0 := by
  have hsum := dotSum_ofCoords x.length (fun j ↦ if i = j then 1 else 0) x.coord
  rw [ofCoords_coord hx] at hsum
  rw [Operator.unitVector_eq, hsum, (hx.getD i).eq, real_inj]
  simp only [ite_mul, one_mul, zero_mul, Finset.sum_ite_eq, Finset.mem_range]
  split_ifs with hi
  · rfl
  · rw [List.getD_eq_default _ _ (not_lt.mp hi)]
    rfl

theorem Vec.dotSum_neg {y : Vec Extended} (hx : IsReal x) (hy : IsReal y)
    (hlength : y.length = x.length) : dotSum (neg y) x = -dotSum y x := by
  rw [← ofCoords_coord_of_length hy hlength, ← ofCoords_coord hx, length_ofCoords, neg_ofCoords,
    dotSum_ofCoords, dotSum_ofCoords, real_neg, real_inj]
  simp only [neg_mul, Finset.sum_neg_distrib]

theorem Box.isReal_boundRows (box : Box Extended) (width : ℕ) :
    ∀ r ∈ box.boundRows width, Vec.IsReal r := by
  intro r hr
  rcases List.mem_append.mp hr with hr | hr
  · obtain ⟨i, -, rfl⟩ := List.mem_map.mp hr
    exact Vec.isReal_unitVector width i
  · obtain ⟨i, -, rfl⟩ := List.mem_map.mp hr
    exact (Vec.isReal_unitVector width i).neg

/-- The residuals of the rows for bounds are what the bounds are exceeded by. -/
theorem AffineSystem.residual_withBounds (hsystem : system.IsReal) (hx : Vec.IsReal x)
    (hlength : x.length = system.matrix.cols) :
    (system.withBounds box).residual x = (fun r ↦ r
      ++ (box.upperBounded.map fun i ↦ x.getD i 0 - box.upper.getD i 0)
      ++ box.lowerBounded.map fun i ↦ box.lower.getD i 0 - x.getD i 0) <$> system.residual x := by
  have hmatrix : (system.withBounds box).matrix.IsReal :=
    DenseMatrix.isReal_ofRows (List.forall_mem_append.mpr
      ⟨fun r hr ↦ by
        obtain ⟨i, -, rfl⟩ := List.mem_map.mp hr
        exact hsystem.matrix.row i, box.isReal_boundRows _⟩)
  have hlengths : (system.matrix.rowList.map (Vec.dotSum · x)).length = system.offset.length := by
    rw [List.length_map, DenseMatrix.length_rowList, system.rows_eq]
  have hlengths' : ((system.withBounds box).matrix.rowList.map (Vec.dotSum · x)).length =
      (system.withBounds box).offset.length := by
    rw [List.length_map, DenseMatrix.length_rowList, AffineSystem.rows_eq]
  rw [residual, DenseMatrix.mulVec_eq_rowList hmatrix hx hlength, ok_bind, Vec.add, Vec.combine,
    if_pos hlengths', residual, DenseMatrix.mulVec_eq_rowList hsystem.matrix hx hlength, ok_bind,
    Vec.add, Vec.combine, if_pos hlengths]
  refine congrArg Except.ok ?_
  rw [rowList_withBounds, List.map_append, withBounds, List.zipWith_append hlengths]
  dsimp only
  rw [List.append_assoc, Box.boundRows, Box.boundOffsets, List.map_append,
    List.zipWith_append (by simp only [List.length_map]), List.map_map, List.map_map,
    List.zipWith_map, List.zipWith_map, List.zipWith_self, List.zipWith_self]
  refine congrArg _ (congrArg₂ _ (List.map_congr_left fun i hi ↦ ?_)
    (List.map_congr_left fun i hi ↦ ?_))
  · rw [Function.comp_apply, ← hlength, Vec.dotSum_unitVector hx]
    rfl
  · rw [Function.comp_apply, ← hlength, Vec.dotSum_neg hx (Vec.isReal_unitVector _ _)
      (Operator.length_unitVector _ _), Vec.dotSum_unitVector hx]
    obtain ⟨t, ht⟩ := hx.getD i
    obtain ⟨l, hl⟩ := SlackForm.isReal_of_mem_restrictedIndices hi
    rw [ht, hl, real_neg, real_add, real_sub, neg_add_eq_sub]

/-! ## Sizes -/

theorem Box.restrictedIndices_replicate {n : ℕ} {a : Extended} (h : Scalar.isFinite a = false) :
    restrictedIndices (List.replicate n a) = [] := by
  refine List.filter_eq_nil_iff.mpr fun i hi ↦ ?_
  rw [List.length_replicate] at hi
  rw [List.getD_eq_getElem?_getD, List.getElem?_replicate_of_lt (List.mem_range.mp hi)]
  exact ne_true_of_eq_false h

namespace SlackForm

variable {p : SlackForm Extended} {level : Level Extended} {z v : Vec Extended}

@[simp] theorem upperBounded_withBoundRows (p : SlackForm Extended) :
    p.withBoundRows.upperBounded = [] := Box.restrictedIndices_replicate rfl

@[simp] theorem lowerBounded_withBoundRows (p : SlackForm Extended) :
    p.withBoundRows.lowerBounded = [] := Box.restrictedIndices_replicate rfl

@[simp] theorem variableCount_withBoundRows (p : SlackForm Extended) :
    p.withBoundRows.variableCount = p.variableCount := List.length_replicate

/-- Every finite bound has a slack in both problems. -/
@[simp] theorem slackCount_withBoundRows (p : SlackForm Extended) :
    p.withBoundRows.slackCount = p.slackCount := by
  have hcount : p.withBoundRows.affineInequality.count =
      p.affineInequality.count + (p.upperBounded.length + p.lowerBounded.length) := by
    simp only [withBoundRows, AffineSystem.withBounds, AffineSystem.count, List.length_append,
      Box.boundOffsets, List.length_map]
    rfl
  have hinequality : p.withBoundRows.inequality = p.inequality := rfl
  rw [slackCount, slackCount, hcount, hinequality, upperBounded_withBoundRows,
    lowerBounded_withBoundRows, List.length_nil]
  omega

@[simp] theorem dim_withBoundRows (p : SlackForm Extended) : p.withBoundRows.dim = p.dim := by
  rw [dim, dim, variableCount_withBoundRows, slackCount_withBoundRows]

@[simp] theorem constraintCount_withBoundRows (p : SlackForm Extended) :
    p.withBoundRows.constraintCount = p.constraintCount := by
  rw [constraintCount, constraintCount, slackCount_withBoundRows]
  rfl

/-! ## Functions that count the slacks -/

theorem split_withBoundRows (p : SlackForm Extended) (z : Vec Extended) :
    p.withBoundRows.split z = p.split z := by
  rw [split, split, dim_withBoundRows, variableCount_withBoundRows]

theorem value_withBoundRows (p : SlackForm Extended) : p.withBoundRows.value = p.value := by
  funext level z
  rw [value, value, split_withBoundRows]
  rfl

theorem gradient_withBoundRows (p : SlackForm Extended) :
    p.withBoundRows.gradient = p.gradient := by
  funext level z
  rw [gradient, gradient, split_withBoundRows, dim_withBoundRows, slackCount_withBoundRows]
  rfl

theorem scaling_withBoundRows (p : SlackForm Extended) : p.withBoundRows.scaling = p.scaling := by
  funext z
  rw [scaling, scaling, split_withBoundRows, variableCount_withBoundRows]

theorem hessian_withBoundRows (p : SlackForm Extended) : p.withBoundRows.hessian = p.hessian := by
  have hrequire : p.withBoundRows.requireMultipliers = p.requireMultipliers := by
    funext v
    rw [requireMultipliers, requireMultipliers, constraintCount_withBoundRows]
  have hvariables : p.withBoundRows.variableHessian = p.variableHessian := by
    funext z v
    rw [variableHessian, variableHessian, hrequire, split_withBoundRows]
    rfl
  have hslacks : p.withBoundRows.slackHessian = p.slackHessian := by
    funext level z v
    rw [slackHessian, slackHessian, hrequire, split_withBoundRows, slackCount_withBoundRows]
    rfl
  funext level z v
  rw [hessian, hessian, split_withBoundRows, hvariables, hslacks]

/-! ## Constraints -/

theorem rowValues_withBoundRows (hp : p.AffineParts) {x : Vec Extended} (hx : Vec.IsReal x)
    (hlength : x.length = p.variableCount) : p.withBoundRows.rowValues x = p.rowValues x := by
  have hupper : p.withBoundRows.upperResidual x = [] := by
    rw [upperResidual, upperBounded_withBoundRows, List.map_nil]
  have hlower : p.withBoundRows.lowerResidual x = [] := by
    rw [lowerResidual, lowerBounded_withBoundRows, List.map_nil]
  have hresidual : p.withBoundRows.affineInequality.residual x =
      (fun r ↦ r ++ p.upperResidual x ++ p.lowerResidual x) <$> p.affineInequality.residual x :=
    AffineSystem.residual_withBounds hp.inequality hx (hlength.trans hp.cols_inequality.symm)
  rw [rowValues, rowValues, hupper, hlower, hresidual]
  refine bind_congr fun equality ↦ bind_congr fun affineEquality ↦ bind_congr fun inequality ↦ ?_
  rw [bind_map_left]
  refine bind_congr fun affineInequality ↦ ?_
  simp only [List.append_nil, List.append_assoc]

/-- The constraints are the same, but the bounds are evaluated in another way. -/
theorem constraints_withBoundRows (hp : p.AffineParts) (hz : Vec.IsReal z) :
    p.withBoundRows.constraints z = p.constraints z := by
  by_cases hlength : z.length = p.dim
  · rw [constraints_eq_bind ((dim_withBoundRows p).symm ▸ hlength), constraints_eq_bind hlength,
      variableCount_withBoundRows, constraintCount_withBoundRows,
      rowValues_withBoundRows hp (hz.take _) (length_variables hlength)]
  · rw [constraints, constraints, split_withBoundRows, split, if_neg hlength]
    rfl

/-! ## The Jacobian -/

section Jacobian

variable {α : Type} [Scalar α]

theorem jacobian_eq_bind (p : SlackForm α) (z : Vec α) :
    p.jacobian z = p.split z >>= fun r ↦ p.inequalityRows r.1 >>= p.assemble r.1 r.2 := rfl

/-- The dense Jacobian depends on the rows of the inequalities through their dense matrix. -/
theorem assemble_congr (p : SlackForm α) (x s : Vec α) {rows rows' : Operator α}
    (h : rows.toMatrix = rows'.toMatrix) :
    Operator.toMatrix <$> p.assemble x s rows = Operator.toMatrix <$> p.assemble x s rows' := by
  rw [assemble, assemble]
  refine map_bind_congr (g := id) rfl ?_
  rintro equality _ rfl
  refine map_bind_congr (Grid.place_congr rfl rfl 0 0) fun grid grid' hgrid ↦ ?_
  refine map_bind_congr (Grid.place_congr hgrid rfl 1 0) fun grid grid' hgrid ↦ ?_
  refine map_bind_congr (Grid.place_congr hgrid h 2 0) fun grid grid' hgrid ↦ ?_
  refine map_bind_congr (Grid.place_congr hgrid rfl 2 1) fun grid grid' hgrid ↦ ?_
  exact congrArg Except.ok (Grid.toMatrix_congr hgrid)

end Jacobian

theorem rowList_selection_real (indices : List ℕ) (width : ℕ) (σ : ℝ) :
    (Operator.selection indices width (real σ)).toMatrix.rowList =
      indices.map fun i ↦ Vec.ofCoords width fun j ↦ σ * if i = j then 1 else 0 := by
  rw [Operator.rowList_selection]
  refine List.map_congr_left fun i _ ↦ List.map_congr_left fun j _ ↦ ?_
  dsimp only
  split_ifs
  · rw [one_eq, real_mul]
  · rw [zero_eq, real_mul]

theorem boundRows_eq (p : SlackForm Extended) (width : ℕ) :
    p.objective.domain.boundRows width =
      (Operator.selection p.upperBounded width (1 : Extended)).toMatrix.rowList
        ++ (Operator.selection p.lowerBounded width (-1 : Extended)).toMatrix.rowList := by
  rw [one_eq, real_neg, rowList_selection_real, rowList_selection_real, Box.boundRows]
  simp only [one_mul, neg_one_mul, ← Vec.neg_ofCoords, ← Operator.unitVector_eq]
  rfl

/-- The rows of the inequalities are those of the nonlinear ones, of the linear ones and of the
finite bounds. -/
theorem toMatrix_inequalityRows (hcols : p.affineInequality.matrix.cols = p.variableCount)
    (x : Vec Extended) : Operator.toMatrix <$> p.inequalityRows x =
      p.inequality.jacobian x >>= fun nonlinear ↦
        if nonlinear.cols = p.variableCount then
          .ok (.ofRows p.variableCount (nonlinear.toMatrix.rowList
            ++ (p.affineInequality.matrix.rowList
              ++ p.objective.domain.boundRows p.variableCount)))
        else .error .blockShape := by
  rw [inequalityRows, map_bind]
  refine bind_congr fun nonlinear ↦ ?_
  rw [Operator.select_eq _ fun i hi ↦ lt_of_mem_upperBounded hi, ok_bind,
    Operator.select_eq _ fun i hi ↦ lt_of_mem_lowerBounded hi, ok_bind]
  split_ifs with h
  · have hops : ∀ op ∈ [nonlinear, .dense p.affineInequality.matrix,
        .selection p.upperBounded p.variableCount 1,
        .selection p.lowerBounded p.variableCount (-1)], op.cols = p.variableCount := by
      simp only [List.forall_mem_cons]
      exact ⟨h, hcols, rfl, rfl, List.forall_mem_nil _⟩
    have hlengths : ∀ r ∈ nonlinear.toMatrix.rowList ++ (p.affineInequality.matrix.rowList
        ++ p.objective.domain.boundRows p.variableCount), r.length = p.variableCount := by
      simp only [List.forall_mem_append]
      exact ⟨fun r hr ↦ (DenseMatrix.length_of_mem_rowList hr).trans
          ((Operator.cols_toMatrix _).trans h),
        fun r hr ↦ (DenseMatrix.length_of_mem_rowList hr).trans hcols,
        fun r ↦ Box.length_of_mem_boundRows⟩
    rw [Grid.stack_eq hops, ok_bind]
    refine congrArg Except.ok (DenseMatrix.ext_rowList ?_ ?_)
    · rw [Operator.cols_toMatrix]
      rfl
    · rw [DenseMatrix.rowList_ofRows hlengths, boundRows_eq]
      refine (Operator.rowList_stack hops).trans ?_
      simp only [List.map_cons, List.map_nil, List.flatten_cons, List.flatten_nil, List.append_nil]
      rfl
  · rw [Grid.stack_eq_error _ h]
    rfl

theorem inequalityRows_withBoundRows (hcols : p.affineInequality.matrix.cols = p.variableCount)
    (x : Vec Extended) : Operator.toMatrix <$> p.withBoundRows.inequalityRows x =
      Operator.toMatrix <$> p.inequalityRows x := by
  have hcols' : p.withBoundRows.affineInequality.matrix.cols = p.withBoundRows.variableCount :=
    hcols.trans (variableCount_withBoundRows p).symm
  have hbounds : p.withBoundRows.objective.domain.boundRows p.variableCount = [] := by
    rw [boundRows_eq, upperBounded_withBoundRows, lowerBounded_withBoundRows]
    rfl
  have hrows : p.withBoundRows.affineInequality.matrix.rowList =
      p.affineInequality.matrix.rowList ++ p.objective.domain.boundRows p.variableCount :=
    hcols ▸ AffineSystem.rowList_withBounds p.affineInequality p.objective.domain
  rw [toMatrix_inequalityRows hcols', toMatrix_inequalityRows hcols, variableCount_withBoundRows,
    hrows, hbounds, List.append_nil]
  rfl

/-- The Jacobian is another operator with the same dense matrix. -/
theorem jacobian_withBoundRows (hcols : p.affineInequality.matrix.cols = p.variableCount)
    (z : Vec Extended) : Operator.toMatrix <$> p.withBoundRows.jacobian z =
      Operator.toMatrix <$> p.jacobian z := by
  have hassemble : p.withBoundRows.assemble = p.assemble := by
    funext x s rows
    rw [assemble, assemble, variableCount_withBoundRows, slackCount_withBoundRows]
    rfl
  rw [jacobian_eq_bind, jacobian_eq_bind, split_withBoundRows, hassemble]
  refine map_bind_congr (g := id) rfl ?_
  rintro r _ rfl
  exact map_bind_congr (inequalityRows_withBoundRows hcols r.1) fun rows rows' h ↦
    p.assemble_congr r.1 r.2 h

end SlackForm

end LogBarrier
