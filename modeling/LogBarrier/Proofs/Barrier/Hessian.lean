import LogBarrier.Proofs.Barrier.Linearization
import LogBarrier.Proofs.Exact.Projections

/-!
# The scaled Hessian

The scaled Hessian of the Lagrangian has two blocks. On the variables it is what the user answers
for the multipliers of the nonlinear constraints, and every slack is multiplied by a weight.

## Two overlapping parts of the multipliers

The multipliers of the nonlinear inequalities are read twice. The user is given them together with
those of the nonlinear equalities, and they are the first of the multipliers of the slacks. Those of
the linear equalities stand in between and are read by neither block.

## The weight of a slack

The diagonal entry of a slack is a quotient, either `v / s` or `μ / s²`, and it is multiplied by the
slack twice. So the weight is `v s` or `μ`, and it is positive whichever of the two is taken.
-/

namespace LogBarrier

open Extended

namespace Vec

variable {n m : ℕ} {x y x' y' : Vec Extended}

theorem InSpace.exists_append_eq (hx : InSpace n x) (hy : InSpace m y) :
    ∃ f, x = ofCoords n f ∧ y = ofCoords m fun i ↦ f (n + i) := by
  have hlength : (x ++ y).length = n + m := by rw [List.length_append, hx.length_eq, hy.length_eq]
  have hwhole := ofCoords_coord_of_length (isReal_append.mpr ⟨hx.isReal, hy.isReal⟩) hlength
  rw [ofCoords_add] at hwhole
  obtain ⟨hleft, hright⟩ :=
    List.append_inj hwhole ((length_ofCoords _ _).trans hx.length_eq.symm)
  exact ⟨_, hleft.symm, hright.symm⟩

theorem InSpace.dot_append (hx : InSpace n x) (hx' : InSpace n x') (hy : InSpace m y)
    (hy' : InSpace m y') : dot (x ++ y) (x' ++ y') =
      .ok (real (tuple n x ⬝ᵥ tuple n x' + tuple m y ⬝ᵥ tuple m y')) := by
  obtain ⟨f, rfl, rfl⟩ := hx.exists_append_eq hy
  obtain ⟨g, rfl, rfl⟩ := hx'.exists_append_eq hy'
  rw [← ofCoords_add, ← ofCoords_add, dot, if_pos (by rw [length_ofCoords, length_ofCoords]),
    dotSum_ofCoords, Finset.sum_range_add]
  simp only [tuple_ofCoords, dotProduct, Finset.sum_range]

end Vec

/-- Two operators along the diagonal fill a grid of four cells. -/
theorem Grid.blockDiagonal_pair {α : Type} (op op' : Operator α) :
    Grid.blockDiagonal [op, op'] =
      .ok ⟨[op.rows, op'.rows], [op.cols, op'.cols], [⟨0, 0, op⟩, ⟨1, 1, op'⟩]⟩ := by
  rw [blockDiagonal, List.zipIdx_cons, List.foldlM_cons]
  dsimp only
  rw [place_eq (by simp [zeros]) (by simp [zeros]) rfl rfl, ok_bind, List.zipIdx_cons,
    List.foldlM_cons]
  dsimp only
  rw [place_eq (by simp [zeros]) (by simp [zeros]) rfl rfl]
  rfl

namespace SlackForm

/-! ## The weight of a slack -/

/-- The diagonal entry of the unscaled Hessian for a slack, among the real numbers. -/
noncomputable def curvature (μ s v : ℝ) : ℝ := if 0 < v then v / s else μ / (s * s)

/-- The diagonal entry of the scaled Hessian for a slack: the product with a positive multiplier,
and the barrier parameter otherwise. -/
noncomputable def weight (μ s v : ℝ) : ℝ := if 0 < v then v * s else μ

variable {μ s v : ℝ}

theorem slackCurvature_real (hs : 0 < s) :
    slackCurvature (real μ) (real s) (real v) = real (curvature μ s v) := by
  rw [slackCurvature, zero_eq, real_mul, real_div hs.ne', real_div (mul_pos hs hs).ne', curvature]
  by_cases hv : 0 < v
  · rw [if_pos (real_lt.mpr hv), if_pos hv]
  · rw [if_neg (mt real_lt.mp hv), if_neg hv]

theorem curvature_mul_mul (hs : 0 < s) : curvature μ s v * s * s = weight μ s v := by
  have hne := hs.ne'
  rw [curvature, weight]
  split_ifs <;> field_simp

theorem weight_pos (hμ : 0 < μ) (hs : 0 < s) : 0 < weight μ s v := by
  by_cases hv : 0 < v
  · rw [weight, if_pos hv]
    exact mul_pos hv hs
  · rwa [weight, if_neg hv]

/-- On the central path the two formulas are the same. -/
theorem curvature_of_mul_eq (hs : 0 < s) (h : s * v = μ) :
    curvature μ s v = v / s ∧ curvature μ s v = μ / (s * s) := by
  have hne := hs.ne'
  have hsame : v / s = μ / (s * s) := by
    rw [← h]
    field_simp
  rw [curvature, ← hsame, ite_self]
  exact ⟨rfl, rfl⟩

/-! ## Evaluation -/

section Slices

variable {α : Type} [Scalar α] {p : SlackForm α} {z v : Vec α}

/-- The user is asked at the variables, with the multipliers of the nonlinear constraints. -/
theorem variableHessian_eq (hz : z.length = p.dim) (hv : v.length = p.constraintCount) :
    p.variableHessian z v = p.objective.hessian (z.take p.variableCount)
      (v.take p.equality.count) ((v.drop p.equalityCount).take p.inequality.count) := by
  have hequality : 0 + p.equality.count ≤ v.length := by
    rw [hv, constraintCount, equalityCount]
    omega
  have hinequality : p.equalityCount + p.inequality.count ≤ v.length := by
    rw [hv, constraintCount, slackCount]
    omega
  rw [variableHessian, requireMultipliers, Fault.require, if_pos hv, ok_bind, split, if_pos hz,
    ok_bind]
  dsimp only
  rw [Vec.slice, if_pos hequality, ok_bind, Vec.slice, if_pos hinequality, ok_bind, List.drop_zero]

end Slices

variable {p : SlackForm Extended} {level : Level Extended} {H H' B : Operator Extended}
  {z v v' dx ds : Vec Extended} {μ : ℝ} {w : ℕ → ℝ}

noncomputable def slackWeights (p : SlackForm Extended) (μ : ℝ) (z v : Vec Extended) (i : ℕ) : ℝ :=
  weight μ (z.coord (p.variableCount + i)) (v.coord (p.equalityCount + i))

/-- The operator is what the user answers for the Hessian at the variables of the iterate, given
exactly the multipliers of the nonlinear constraints. It has a row and a column for each
variable. -/
structure AnswersHessian (p : SlackForm Extended) (z v : Vec Extended) (H : Operator Extended) :
    Prop where
  eq_ok : p.objective.hessian (z.take p.variableCount) (v.take p.equality.count)
    ((v.drop p.equalityCount).take p.inequality.count) = .ok H
  isReal : H.IsReal
  shape : H.HasShape p.variableCount p.variableCount

/-- The multipliers of the nonlinear constraints are the same. -/
structure SameNonlinear (p : SlackForm Extended) (v v' : Vec Extended) : Prop where
  equality : v'.take p.equality.count = v.take p.equality.count
  inequality : (v'.drop p.equalityCount).take p.inequality.count =
    (v.drop p.equalityCount).take p.inequality.count

theorem AnswersHessian.of_same (hH : p.AnswersHessian z v H) (h : p.SameNonlinear v v') :
    p.AnswersHessian z v' H where
  eq_ok := by
    rw [h.equality, h.inequality]
    exact hH.eq_ok
  isReal := hH.isReal
  shape := hH.shape

theorem Interior.slack_pos (hz : p.Interior z) {i : ℕ} (hi : i < p.slackCount) :
    0 < z.coord (p.variableCount + i) := by
  rw [← Vec.coord_drop]
  exact hz.coord_pos i hi

theorem Interior.slacks_eq (hz : p.Interior z) : z.drop p.variableCount =
    Vec.ofCoords p.slackCount fun i ↦ z.coord (p.variableCount + i) :=
  Vec.drop_eq_ofCoords hz.isReal hz.length_eq

theorem slackHessian_eq (hlevel : level.parameter = real μ) (hz : p.Interior z)
    (hv : Vec.InSpace p.constraintCount v) : p.slackHessian level z v =
      .ok (Vec.ofCoords p.slackCount fun i ↦
        curvature μ (z.coord (p.variableCount + i)) (v.coord (p.equalityCount + i))) := by
  have hmultipliers : Vec.slice v p.equalityCount p.slackCount =
      .ok (Vec.ofCoords p.slackCount fun i ↦ v.coord (p.equalityCount + i)) := by
    have hslice := Vec.slice_ofCoords (f := v.coord) (le_refl p.constraintCount)
    rwa [Vec.ofCoords_coord_of_length hv.isReal hv.length_eq] at hslice
  rw [slackHessian, requireMultipliers, Fault.require, if_pos hv.length_eq, ok_bind, split,
    if_pos hz.length_eq, ok_bind]
  dsimp only
  rw [requirePositive_eq_ok_iff.mpr hz.positive, ok_bind, hmultipliers, ok_bind, hz.slacks_eq,
    hlevel]
  exact congrArg _ (Vec.zipWith_ofCoords_of_lt fun i hi ↦ slackCurvature_real (hz.slack_pos hi))

/-- The scaled Hessian, given the block of the variables and the weights of the slacks. -/
noncomputable def hessianOperator (p : SlackForm Extended) (H : Operator Extended) (w : ℕ → ℝ) :
    Operator Extended :=
  .block [p.variableCount, p.slackCount] [p.variableCount, p.slackCount]
    [⟨0, 0, H⟩, ⟨1, 1, .diagonal (Vec.ofCoords p.slackCount w)⟩]

theorem hessian_eq (hlevel : level.parameter = real μ) (hz : p.Interior z)
    (hv : Vec.InSpace p.constraintCount v) (hH : p.AnswersHessian z v H) :
    p.hessian level z v = .ok (p.hessianOperator H (p.slackWeights μ z v)) := by
  have hvariables := (variableHessian_eq hz.length_eq hv.length_eq).trans hH.eq_ok
  rw [hessian, split, if_pos hz.length_eq, ok_bind]
  dsimp only
  rw [hvariables, ok_bind, slackHessian_eq hlevel hz hv, ok_bind, hz.slacks_eq, Vec.mul_ofCoords,
    ok_bind, Vec.mul_ofCoords, ok_bind, Grid.blockDiagonal_pair, ok_bind]
  have hscaled : (Vec.ofCoords p.slackCount fun i ↦
      curvature μ (z.coord (p.variableCount + i)) (v.coord (p.equalityCount + i))
        * z.coord (p.variableCount + i) * z.coord (p.variableCount + i)) =
      Vec.ofCoords p.slackCount (p.slackWeights μ z v) :=
    Vec.ofCoords_congr fun i hi ↦ curvature_mul_mul (hz.slack_pos hi)
  rw [hscaled, Grid.toOperator, hessianOperator]
  dsimp only
  rw [hH.shape.rows_eq, hH.shape.cols_eq, Operator.rows_diagonal, Operator.cols_diagonal,
    Vec.length_ofCoords]
  rfl

/-! ## Application -/

/-- The operator maps the variables as `H` does, and multiplies every slack by its weight. -/
def ActsBlockwise (p : SlackForm Extended) (B H : Operator Extended) (w : ℕ → ℝ) : Prop :=
  ∀ dx ds, Vec.InSpace p.variableCount dx → Vec.InSpace p.slackCount ds →
    ∃ y, H.apply dx = .ok y ∧ Vec.InSpace p.variableCount y
      ∧ B.apply (dx ++ ds) = .ok (y ++ Vec.ofCoords p.slackCount fun i ↦ w i * ds.coord i)

theorem wellFormed_hessianOperator (hH : H.HasShape p.variableCount p.variableCount) (w : ℕ → ℝ) :
    (p.hessianOperator H w).WellFormed := by
  have hlength := Vec.length_ofCoords p.slackCount w
  refine .block ?_ ?_ (by simp)
  · simp only [List.forall_mem_cons, List.not_mem_nil, IsEmpty.forall_iff, implies_true, and_true]
    exact ⟨hH.wellFormed, .diagonal _⟩
  · simp only [List.forall_mem_cons, List.not_mem_nil, IsEmpty.forall_iff, implies_true, and_true]
    exact ⟨⟨hH.rows_eq, hH.cols_eq⟩, hlength, hlength⟩

theorem isReal_hessianOperator (hH : H.IsReal) (w : ℕ → ℝ) : (p.hessianOperator H w).IsReal := by
  refine .block ?_
  simp only [List.forall_mem_cons, List.not_mem_nil, IsEmpty.forall_iff, implies_true, and_true]
  exact ⟨hH, .diagonal (Vec.isReal_ofCoords _ _)⟩

theorem sum_row_variable (hH : H.HasShape p.variableCount p.variableCount) (w f : ℕ → ℝ) {i : ℕ}
    (hi : i < p.variableCount) :
    ∑ j ∈ Finset.range (p.variableCount + p.slackCount), (p.hessianOperator H w).coeff i j * f j =
      ∑ j ∈ Finset.range p.variableCount, H.coeff i j * f j := by
  have hrow := Operator.sum_row_of_singleton (wellFormed_hessianOperator hH w) 0 0 rfl rfl
    hH.cols_eq f (hH.rows_eq ▸ hi)
  rwa [zero_add] at hrow

theorem sum_row_slack (hH : H.HasShape p.variableCount p.variableCount) (w f : ℕ → ℝ) {i : ℕ}
    (hi : i < p.slackCount) :
    ∑ j ∈ Finset.range (p.variableCount + p.slackCount),
        (p.hessianOperator H w).coeff (p.variableCount + i) j * f j =
      w i * f (p.variableCount + i) := by
  have hlength : i < (Vec.ofCoords p.slackCount w).length := by rwa [Vec.length_ofCoords]
  have hoffset : Operator.offset [p.variableCount, p.slackCount] 1 = p.variableCount := by
    simp [Operator.offset]
  have hrow := Operator.sum_row_of_cell (wellFormed_hessianOperator hH w) f (r := 1) hi
  rw [hoffset] at hrow
  -- The second row of cells holds the diagonal only.
  refine hrow.trans ((add_zero _).trans ?_)
  dsimp only
  rw [hoffset, Operator.cols_diagonal,
    Operator.sum_row_diagonal (fun j ↦ f (p.variableCount + j)) hlength, Vec.coord_ofCoords hi]

theorem actsBlockwise_hessianOperator (hreal : H.IsReal)
    (hH : H.HasShape p.variableCount p.variableCount) (w : ℕ → ℝ) :
    p.ActsBlockwise (p.hessianOperator H w) H w := by
  intro dx ds hdx hds
  obtain ⟨f, rfl, rfl⟩ := hdx.exists_append_eq hds
  have hfirst := Operator.apply_ofCoords hH.wellFormed hreal f
  have hwhole := Operator.apply_ofCoords (wellFormed_hessianOperator hH w)
    (isReal_hessianOperator hreal w) f
  rw [hH.cols_eq, hH.rows_eq] at hfirst
  have hrows : (p.hessianOperator H w).rows = p.variableCount + p.slackCount := by
    simp [hessianOperator, Operator.rows]
  have hcols : (p.hessianOperator H w).cols = p.variableCount + p.slackCount := by
    simp [hessianOperator, Operator.cols]
  rw [hrows, hcols] at hwhole
  refine ⟨_, hfirst, Vec.inSpace_ofCoords _ _, ?_⟩
  rw [← Vec.ofCoords_add, hwhole, Vec.ofCoords_add]
  refine congrArg _ (congrArg₂ _ (Vec.ofCoords_congr fun i hi ↦ sum_row_variable hH w f hi)
    (Vec.ofCoords_congr fun i hi ↦ ?_))
  rw [sum_row_slack hH w f hi, Vec.coord_ofCoords hi]

/-! ## The quadratic form -/

/-- The quadratic form of `B` is at least that of `H` in the variables, and equal to it only if the
slacks do not change. -/
def Dominates (p : SlackForm Extended) (B H : Operator Extended) : Prop :=
  ∀ dx ds, Vec.InSpace p.variableCount dx → Vec.InSpace p.slackCount ds →
    ∃ y u, ∃ a b : ℝ, H.apply dx = .ok y ∧ B.apply (dx ++ ds) = .ok u
      ∧ Vec.dot dx y = .ok (real a) ∧ Vec.dot (dx ++ ds) u = .ok (real b)
      ∧ a ≤ b ∧ (a = b ↔ ds = Vec.zeros p.slackCount)

theorem sum_weighted_sq {m : ℕ} {f : ℕ → ℝ} (hw : ∀ i < m, 0 < w i) :
    0 ≤ ∑ i : Fin m, f i * (w i * f i)
      ∧ (∑ i : Fin m, f i * (w i * f i) = 0 ↔ ∀ i < m, f i = 0) := by
  have hterm : ∀ i : Fin m, f i * (w i * f i) = w i * f i ^ 2 := fun i ↦ by ring
  have hnonneg : ∀ i ∈ Finset.univ, 0 ≤ f (i : Fin m) * (w i * f i) := by
    intro i _
    rw [hterm]
    exact mul_nonneg (hw i i.2).le (sq_nonneg _)
  refine ⟨Finset.sum_nonneg hnonneg, ?_⟩
  rw [Finset.sum_eq_zero_iff_of_nonneg hnonneg]
  constructor
  · intro h i hi
    have hzero := h ⟨i, hi⟩ (Finset.mem_univ _)
    rw [hterm] at hzero
    exact pow_eq_zero_iff two_ne_zero |>.mp ((mul_eq_zero.mp hzero).resolve_left (hw i hi).ne')
  · intro h i _
    rw [h i i.2, zero_mul]

theorem ActsBlockwise.dominates (h : p.ActsBlockwise B H w) (hw : ∀ i < p.slackCount, 0 < w i) :
    p.Dominates B H := by
  intro dx ds hdx hds
  obtain ⟨y, hy, hyspace, hu⟩ := h dx ds hdx hds
  have hdot := hdx.dot_append hyspace hds (Vec.inSpace_ofCoords p.slackCount fun i ↦
    w i * ds.coord i)
  refine ⟨y, _, _, _, hy, hu, hdx.dot_eq hyspace, hdot, ?_⟩
  rw [Vec.tuple_ofCoords, le_add_iff_nonneg_right, left_eq_add]
  obtain ⟨hnonneg, hzero⟩ := sum_weighted_sq (f := ds.coord) hw
  refine ⟨hnonneg, hzero.trans ?_⟩
  constructor
  · intro hcoord
    rw [Vec.zeros_eq_ofCoords]
    exact Vec.eq_ofCoords hds.isReal hds.length_eq hcoord
  · rintro rfl i -
    exact Vec.coord_zeros _ i

/-! ## The whole -/

/-- The weights read the multipliers of the slacks only. -/
theorem slackWeights_congr (h : v'.drop p.equalityCount = v.drop p.equalityCount) :
    p.slackWeights μ z v' = p.slackWeights μ z v := by
  funext i
  rw [slackWeights, slackWeights, ← Vec.coord_drop v', h, Vec.coord_drop]

/-- **The scaled Hessian acts blockwise with positive weights.** At positive slacks, checked or not,
the subproblem answers with an operator that applies the user's Hessian to the variables and
multiplies every slack by its weight, so its quadratic form is larger unless the slacks rest. The
first block stays the same whatever becomes of the multipliers of linear constraints and bounds,
and the weights stay the same whatever becomes of those of the equalities. If all products of slacks
and multipliers are equal to the barrier parameter, then it does not matter which formula is
taken. -/
theorem hessian_acts_blockwise (hlevel : level.parameter = real μ) (hμ : 0 < μ)
    (hz : p.Interior z) (hv : Vec.InSpace p.constraintCount v) (hH : p.AnswersHessian z v H) :
    (∃ B, p.hessian level z v = .ok B ∧ p.ActsBlockwise B H (p.slackWeights μ z v)
        ∧ p.Dominates B H)
      ∧ (∀ i < p.slackCount, 0 < p.slackWeights μ z v i)
      ∧ (∀ v', Vec.InSpace p.constraintCount v' → p.SameNonlinear v v' →
        ∃ B, p.hessian level z v' = .ok B ∧ p.ActsBlockwise B H (p.slackWeights μ z v'))
      ∧ (∀ v' H', Vec.InSpace p.constraintCount v' →
        v'.drop p.equalityCount = v.drop p.equalityCount → p.AnswersHessian z v' H' →
        ∃ B, p.hessian level z v' = .ok B ∧ p.ActsBlockwise B H' (p.slackWeights μ z v))
      ∧ ((∀ i < p.slackCount,
          z.coord (p.variableCount + i) * v.coord (p.equalityCount + i) = μ) →
        p.slackHessian level z v = .ok (Vec.ofCoords p.slackCount fun i ↦
            v.coord (p.equalityCount + i) / z.coord (p.variableCount + i))
          ∧ p.slackHessian level z v = .ok (Vec.ofCoords p.slackCount fun i ↦
            μ / (z.coord (p.variableCount + i) * z.coord (p.variableCount + i)))
          ∧ ∀ i < p.slackCount, p.slackWeights μ z v i = μ) := by
  have hblockwise : ∀ {v' H'}, Vec.InSpace p.constraintCount v' → p.AnswersHessian z v' H' →
      ∃ B, p.hessian level z v' = .ok B ∧ p.ActsBlockwise B H' (p.slackWeights μ z v') :=
    fun hv' hH' ↦ ⟨_, hessian_eq hlevel hz hv' hH',
      actsBlockwise_hessianOperator hH'.isReal hH'.shape _⟩
  have hpos : ∀ i < p.slackCount, 0 < p.slackWeights μ z v i :=
    fun i hi ↦ weight_pos hμ (hz.slack_pos hi)
  refine ⟨?_, hpos, ?_, ?_, ?_⟩
  · obtain ⟨B, hB, hacts⟩ := hblockwise hv hH
    exact ⟨B, hB, hacts, hacts.dominates hpos⟩
  · intro v' hv' hsame
    exact hblockwise hv' (hH.of_same hsame)
  · intro v' H' hv' hslacks hH'
    rw [← slackWeights_congr hslacks]
    exact hblockwise hv' hH'
  · intro hcentral
    have hcurvature := fun i hi ↦ curvature_of_mul_eq (hz.slack_pos hi) (hcentral i hi)
    rw [slackHessian_eq hlevel hz hv]
    refine ⟨congrArg _ (Vec.ofCoords_congr fun i hi ↦ (hcurvature i hi).1),
      congrArg _ (Vec.ofCoords_congr fun i hi ↦ (hcurvature i hi).2), fun i hi ↦ ?_⟩
    rw [slackWeights, weight, mul_comm, hcentral i hi, ite_self]

/-! ## A parabola on a line -/

/-- The parabola over the interval from zero to one, with a linear equality and the nonlinear
inequality `x² ≤ 1`, whose multiplier enters the Hessian. -/
noncomputable def alignedParabola : SlackForm Extended where
  objective := { Gallery.parabola.objective with
    hessian := fun _ _ w ↦ do return .diagonal [2.0 + 2.0 * (← Vec.entry w 0)] }
  inequality := unitSquare
  equality := .none
  affineInequality := .empty 1
  affineEquality := ⟨DenseMatrix.ofRows 1 [[1.0]], [-0.5], rfl⟩
  initial := [0.5]
  maxIterations := 1000

/-- The multiplier of the linear equality comes first and is passed over. The others belong to a
nonlinear inequality, which the user is given as well, to an upper bound and to a lower bound. -/
theorem alignedParabola_acts_blockwise : ∃ B,
    alignedParabola.hessian ⟨real 0.1, 0⟩ [real 0.5, real 0.5, real 0.5, real 0.5]
        [real 7, real 3, real (-1), real 4] = .ok B
      ∧ B.apply [real 1, real 1, real 1, real 1] = .ok [real 8, real 1.5, real 0.1, real 2] := by
  have hinterior : alignedParabola.Interior [real 0.5, real 0.5, real 0.5, real 0.5] := by
    refine ⟨by simp [Vec.isReal_cons], rfl, ?_⟩
    change ∀ a ∈ [real 0.5, real 0.5, real 0.5], 0 < a
    simp only [List.forall_mem_cons, zero_eq, real_lt]
    norm_num
  have hv : Vec.InSpace alignedParabola.constraintCount
      [real 7, real 3, real (-1), real 4] := ⟨by simp [Vec.isReal_cons], rfl⟩
  have hH : alignedParabola.AnswersHessian [real 0.5, real 0.5, real 0.5, real 0.5]
      [real 7, real 3, real (-1), real 4] (.diagonal [real (2.0 + 2.0 * 3)]) :=
    ⟨rfl, .diagonal (by simp [Vec.isReal_cons]), .diagonal _, rfl, rfl⟩
  have hlevel : (⟨real 0.1, 0⟩ : Level Extended).parameter = real 0.1 := rfl
  obtain ⟨⟨B, hB, hacts, -⟩, -⟩ :=
    hessian_acts_blockwise hlevel (by norm_num) hinterior hv hH
  obtain ⟨y, hy, -, happly⟩ := hacts [real 1] [real 1, real 1, real 1]
    ⟨by simp [Vec.isReal_cons], rfl⟩ ⟨by simp [Vec.isReal_cons], rfl⟩
  have hfirst : Except.ok [real (1 * (2.0 + 2.0 * 3))] = (.ok y : Except Fault (Vec Extended)) := hy
  cases hfirst
  refine ⟨B, hB, happly.trans ?_⟩
  change Except.ok [real (1 * (2.0 + 2.0 * 3)), real (weight 0.1 0.5 3 * 1),
    real (weight 0.1 0.5 (-1) * 1), real (weight 0.1 0.5 4 * 1)] = _
  norm_num [weight]

end SlackForm

end LogBarrier
