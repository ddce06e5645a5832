import LogBarrier.Proofs.Barrier.Linearization
import LogBarrier.Proofs.Exact.Projections
import Mathlib.LinearAlgebra.Matrix.Rank

/-!
# The row rank of the Jacobian

A row of the scaled Jacobian that belongs to an inequality or to a bound has a column of its own,
which holds its slack and zeros otherwise. So a combination of the rows is zero only if these rows
do not take part in it, and what remains is a combination of the rows of the equalities.

It follows that the Jacobian has full row rank exactly if the stacked Jacobian of the equalities
has. The inequalities may be repeated, redundant or contradictory.

## What is asked of the user

Only the Jacobians of the nonlinear constraints matter here. The values of the constraints and the
gradient of the objective are not read, so a problem may be given others without any effect.
-/

namespace LogBarrier

open Extended Matrix

/-! ## Full row rank -/

/-- The rank of a matrix is its height exactly if only the trivial combination of rows is zero. -/
theorem rank_eq_height_iff {m n : ℕ} (A : Matrix (Fin m) (Fin n) ℝ) :
    A.rank = m ↔ ∀ v, Aᵀ *ᵥ v = 0 → v = 0 := by
  have hsum := Aᵀ.mulVecLin.finrank_range_add_finrank_ker
  rw [← Matrix.rank, Matrix.rank_transpose, Module.finrank_fin_fun] at hsum
  have hker : A.rank = m ↔ Module.finrank ℝ (LinearMap.ker Aᵀ.mulVecLin) = 0 := by omega
  rw [hker, Submodule.finrank_eq_zero, LinearMap.ker_eq_bot']
  rfl

theorem Vec.ofCoords_eq_zeros_iff {n : ℕ} {f : ℕ → ℝ} :
    Vec.ofCoords n f = Vec.zeros n ↔ ∀ i < n, f i = 0 := by
  rw [Vec.zeros_eq_ofCoords]
  constructor
  · intro h i hi
    rw [← Vec.coord_ofCoords (f := f) hi, h, Vec.coord_ofCoords hi]
  · exact Vec.ofCoords_congr

namespace Operator

variable {op : Operator Extended} {v : Vec Extended}

/-- The rows of the dense matrix are linearly independent. -/
def HasFullRowRank (op : Operator Extended) : Prop :=
  (op.toMatrix.asMatrix op.rows op.cols).rank = op.rows

theorem applyTransposed_eq_zeros_iff (h : op.WellFormed) (hop : op.IsReal)
    (hv : Vec.InSpace op.rows v) : op.applyTransposed v = .ok (Vec.zeros op.cols) ↔
      ∀ j < op.cols, ∑ i ∈ Finset.range op.rows, op.coeff i j * v.coord i = 0 := by
  have happly := applyTransposed_ofCoords h hop v.coord
  rw [Vec.ofCoords_coord_of_length hv.isReal hv.length_eq] at happly
  rw [happly, Except.ok.injEq, Vec.ofCoords_eq_zeros_iff]

theorem hasFullRowRank_iff (h : op.WellFormed) (hop : op.IsReal) : op.HasFullRowRank ↔
    ∀ v, Vec.InSpace op.rows v → op.applyTransposed v = .ok (Vec.zeros op.cols) →
      v = Vec.zeros op.rows := by
  have hsum : ∀ f : Fin op.rows → ℝ, (op.toMatrix.asMatrix op.rows op.cols)ᵀ *ᵥ f = 0 ↔
      op.applyTransposed (Vec.ofTuple f) = .ok (Vec.zeros op.cols) := by
    intro f
    rw [applyTransposed_eq_zeros_iff h hop (Vec.inSpace_ofTuple f), funext_iff, Fin.forall_iff]
    refine forall₂_congr fun j hj ↦ ?_
    nth_rewrite 1 [← Vec.tuple_ofTuple f]
    rw [Finset.sum_range]
    rfl
  rw [HasFullRowRank, rank_eq_height_iff]
  constructor
  · intro hindependent v hv hzero
    refine hv.ext (Vec.inSpace_zeros _) ?_
    rw [Vec.tuple_zeros]
    refine hindependent _ ((hsum _).mpr ?_)
    rwa [← hv.ext (Vec.inSpace_ofTuple _) (Vec.tuple_ofTuple _).symm]
  · intro hindependent f hzero
    have hvec := hindependent _ (Vec.inSpace_ofTuple f) ((hsum f).mp hzero)
    rw [← Vec.tuple_ofTuple f, hvec, Vec.tuple_zeros]

end Operator

/-! ## The rows of the equalities -/

/-- The Jacobian of the constraints at a point in `n` variables, in the shape that is declared. -/
structure Constraints.AnswersJacobian (constraints : Constraints Extended) (n : ℕ)
    (x : Vec Extended) (J : Operator Extended) : Prop where
  eq_ok : constraints.jacobian x = .ok J
  isReal : J.IsReal
  shape : J.HasShape constraints.count n

namespace SlackForm

/-- The Jacobian of the nonlinear equalities, and below it the matrix of the linear ones. -/
def equalityRows {α : Type} [Scalar α] (p : SlackForm α) (x : Vec α) :
    Except Fault (Operator α) := do
  let nonlinear ← p.equality.jacobian x
  let grid ← Grid.stack p.variableCount [nonlinear, .dense p.affineEquality.matrix]
  return grid.toOperator

variable {p q : SlackForm Extended} {x s z v : Vec Extended} {E I : Operator Extended}

/-- The rows of the equalities, written out. -/
noncomputable def equalityOperator (p : SlackForm Extended) (a : p.Answers x) :
    Operator Extended :=
  .block [p.equality.count, p.affineEquality.count] [p.variableCount]
    [⟨0, 0, a.equality.jacobian⟩, ⟨1, 0, .dense p.affineEquality.matrix⟩]

section Rows

variable (hp : p.AffineParts) (a : p.Answers x)

include hp

theorem equalityRows_eq : p.equalityRows x = .ok (p.equalityOperator a) := by
  have hcols : ∀ op ∈ [a.equality.jacobian, .dense p.affineEquality.matrix],
      op.cols = p.variableCount := by
    simp only [List.forall_mem_cons, List.not_mem_nil, IsEmpty.forall_iff, implies_true, and_true]
    exact ⟨a.equality.cols_eq, hp.cols_equality⟩
  rw [equalityRows, a.equality.jacobian_eq, ok_bind, Grid.stack_eq hcols, ok_bind, Grid.toOperator,
    equalityOperator, AffineSystem.count, ← p.affineEquality.rows_eq, ← a.equality.rows_eq]
  rfl

theorem wellFormed_equalityOperator : (p.equalityOperator a).WellFormed := by
  refine .block ?_ ?_ (by simp)
  · simp only [List.forall_mem_cons, List.not_mem_nil, IsEmpty.forall_iff, implies_true, and_true]
    exact ⟨a.equality.wellFormed, .dense _⟩
  · simp only [List.forall_mem_cons, List.not_mem_nil, IsEmpty.forall_iff, implies_true, and_true]
    exact ⟨⟨a.equality.rows_eq, a.equality.cols_eq⟩, p.affineEquality.rows_eq, hp.cols_equality⟩

theorem isReal_equalityOperator : (p.equalityOperator a).IsReal := by
  refine .block ?_
  simp only [List.forall_mem_cons, List.not_mem_nil, IsEmpty.forall_iff, implies_true, and_true]
  exact ⟨a.equality.isReal_jacobian, .dense hp.equality.matrix⟩

omit hp in
theorem rows_equalityOperator : (p.equalityOperator a).rows = p.equalityCount := by
  simp [equalityOperator, Operator.rows, equalityCount]

omit hp in
theorem cols_equalityOperator : (p.equalityOperator a).cols = p.variableCount := by
  simp [equalityOperator, Operator.cols]

theorem sum_equalityOperator (f : ℕ → ℝ) {j : ℕ} (hj : j < p.variableCount) :
    ∑ i ∈ Finset.range p.equalityCount, (p.equalityOperator a).coeff i j * f i =
      ∑ i ∈ Finset.range p.equality.count, a.equality.jacobian.coeff i j * f i
        + ∑ i ∈ Finset.range p.affineEquality.count,
          p.affineEquality.matrix.coeff i j * f (p.equality.count + i) := by
  have hwidth : j < Operator.total [p.variableCount] := hj
  rw [← rows_equalityOperator a]
  refine (Operator.sum_coeff_block (wellFormed_equalityOperator hp a) f hwidth).trans ?_
  simp only [List.map_cons, List.map_nil, List.sum_cons, List.sum_nil]
  rw [transposedPart_of_first_col 0 a.equality.rows_eq a.equality.cols_eq rfl f hj,
    transposedPart_of_first_col p.equality.count (by exact p.affineEquality.rows_eq)
      (by exact hp.cols_equality) (by simp [Operator.offset]) f hj, add_zero]
  simp only [zero_add]
  rfl

end Rows

/-! ## Combinations of rows -/

section Combinations

variable (hp : p.AffineParts) (a : p.Answers x) (hs : s.length = p.slackCount)

include hp

theorem inequalitySlope_eq_zero {w : ℕ → ℝ} (hw : ∀ k < p.slackCount, w k = 0) {j : ℕ}
    (hj : j < p.variableCount) : p.inequalitySlope a w j = 0 := by
  rw [← sum_inequalityOperator hp a w hj]
  exact Finset.sum_eq_zero fun k hk ↦ by rw [hw k (Finset.mem_range.mp hk), mul_zero]

include hs

theorem sum_jacobianOperator_split (f : ℕ → ℝ) {j : ℕ} (hj : j < p.variableCount) :
    ∑ i ∈ Finset.range p.constraintCount, (p.jacobianOperator a s).coeff i j * f i =
      ∑ i ∈ Finset.range p.equalityCount, (p.equalityOperator a).coeff i j * f i
        + p.inequalitySlope a (fun k ↦ f (p.equalityCount + k)) j := by
  have hslope := sum_jacobianOperator_variable hp a hs f hj
  rw [lagrangianSlope, add_assoc, add_assoc] at hslope
  rw [add_left_cancel hslope, sum_equalityOperator hp a f hj, add_assoc]

/-- A combination of the rows of the Jacobian is zero exactly if the rows with a slack do not take
part in it and the combination of the others is zero. -/
theorem forall_sum_jacobianOperator_iff (hpos : ∀ k < p.slackCount, 0 < s.coord k) (f : ℕ → ℝ) :
    (∀ j < p.dim,
        ∑ i ∈ Finset.range p.constraintCount, (p.jacobianOperator a s).coeff i j * f i = 0) ↔
      (∀ k < p.slackCount, f (p.equalityCount + k) = 0)
      ∧ ∀ j < p.variableCount,
        ∑ i ∈ Finset.range p.equalityCount, (p.equalityOperator a).coeff i j * f i = 0 := by
  have hvariable : (∀ k < p.slackCount, f (p.equalityCount + k) = 0) → ∀ j < p.variableCount,
      ∑ i ∈ Finset.range p.constraintCount, (p.jacobianOperator a s).coeff i j * f i =
        ∑ i ∈ Finset.range p.equalityCount, (p.equalityOperator a).coeff i j * f i := by
    intro hslack j hj
    rw [sum_jacobianOperator_split hp a hs f hj, inequalitySlope_eq_zero hp a hslack hj, add_zero]
  constructor
  · intro h
    -- The slack columns settle the multipliers of the slacks first.
    have hslack : ∀ k < p.slackCount, f (p.equalityCount + k) = 0 := by
      intro k hk
      have hcolumn := h (p.variableCount + k) (by rw [dim]; omega)
      rw [sum_jacobianOperator_slack hp a hs f hk] at hcolumn
      exact (mul_eq_zero.mp hcolumn).resolve_left (hpos k hk).ne'
    exact ⟨hslack, fun j hj ↦ (hvariable hslack j hj).symm.trans (h j (by rw [dim]; omega))⟩
  · rintro ⟨hslack, hequality⟩ j hj
    rcases lt_or_ge j p.variableCount with hlt | hge
    · exact (hvariable hslack j hlt).trans (hequality j hlt)
    · obtain ⟨k, rfl⟩ := Nat.exists_eq_add_of_le hge
      have hk : k < p.slackCount := by
        rw [dim] at hj
        omega
      rw [sum_jacobianOperator_slack hp a hs f hk, hslack k hk, mul_zero]

end Combinations

theorem inSpace_take_equalities (hv : Vec.InSpace p.constraintCount v) :
    Vec.InSpace p.equalityCount (v.take p.equalityCount) := by
  have hle : p.equalityCount ≤ p.constraintCount := Nat.le_add_right _ _
  exact ⟨hv.isReal.take _, by rw [List.length_take, hv.length_eq, Nat.min_eq_left hle]⟩

theorem applyTransposed_jacobianOperator_iff (hp : p.AffineParts) (a : p.Answers x)
    (hs : Vec.InSpace p.slackCount s) (hpos : ∀ k < p.slackCount, 0 < s.coord k)
    (hv : Vec.InSpace p.constraintCount v) :
    (p.jacobianOperator a s).applyTransposed v = .ok (Vec.zeros p.dim) ↔
      v.drop p.equalityCount = Vec.zeros p.slackCount
      ∧ (p.equalityOperator a).applyTransposed (v.take p.equalityCount) =
        .ok (Vec.zeros p.variableCount) := by
  have hequality := inSpace_take_equalities hv
  have hslack : v.drop p.equalityCount =
      Vec.ofCoords p.slackCount fun k ↦ v.coord (p.equalityCount + k) :=
    Vec.drop_eq_ofCoords hv.isReal hv.length_eq
  have hwhole := Operator.applyTransposed_eq_zeros_iff
    (wellFormed_jacobianOperator hp a hs.length_eq) (isReal_jacobianOperator hp a hs.isReal)
    (v := v) (by rwa [rows_jacobianOperator])
  have hpart := Operator.applyTransposed_eq_zeros_iff (wellFormed_equalityOperator hp a)
    (isReal_equalityOperator hp a) (v := v.take p.equalityCount) (by rwa [rows_equalityOperator])
  rw [rows_jacobianOperator, cols_jacobianOperator] at hwhole
  rw [rows_equalityOperator, cols_equalityOperator] at hpart
  rw [hwhole, forall_sum_jacobianOperator_iff hp a hs.length_eq hpos, hslack,
    Vec.ofCoords_eq_zeros_iff, hpart]
  refine and_congr_right' (forall₂_congr fun j _ ↦ ?_)
  have htake : ∀ i ∈ Finset.range p.equalityCount,
      (p.equalityOperator a).coeff i j * Vec.coord (v.take p.equalityCount) i =
        (p.equalityOperator a).coeff i j * v.coord i :=
    fun i hi ↦ by rw [Vec.coord_take (Finset.mem_range.mp hi)]
  rw [Finset.sum_congr rfl htake]

/-- Rows with a slack do not change whether the rank is full. -/
theorem hasFullRowRank_jacobianOperator_iff (hp : p.AffineParts) (a : p.Answers x)
    (hs : Vec.InSpace p.slackCount s) (hpos : ∀ k < p.slackCount, 0 < s.coord k) :
    (p.jacobianOperator a s).HasFullRowRank ↔ (p.equalityOperator a).HasFullRowRank := by
  rw [Operator.hasFullRowRank_iff (wellFormed_jacobianOperator hp a hs.length_eq)
      (isReal_jacobianOperator hp a hs.isReal),
    Operator.hasFullRowRank_iff (wellFormed_equalityOperator hp a) (isReal_equalityOperator hp a),
    rows_jacobianOperator, cols_jacobianOperator, rows_equalityOperator, cols_equalityOperator]
  constructor
  · intro h u hu hzero
    -- The combination of the equalities is one of all rows, with zeros for the others.
    have hv : Vec.InSpace p.constraintCount (u ++ Vec.zeros p.slackCount) :=
      ⟨Vec.isReal_append.mpr ⟨hu.isReal, Vec.IsReal.zeros _⟩,
        by rw [List.length_append, hu.length_eq, Vec.length_zeros, constraintCount]⟩
    have hall := h _ hv ((applyTransposed_jacobianOperator_iff hp a hs hpos hv).mpr
      ⟨List.drop_left' hu.length_eq, by rwa [List.take_left' hu.length_eq]⟩)
    have htake := congrArg (List.take p.equalityCount) hall
    rwa [List.take_left' hu.length_eq, Vec.zeros, List.take_replicate, constraintCount,
      Nat.min_eq_left (Nat.le_add_right _ _)] at htake
  · intro h v hv hzero
    obtain ⟨hdrop, htake⟩ := (applyTransposed_jacobianOperator_iff hp a hs hpos hv).mp hzero
    rw [← List.take_append_drop p.equalityCount v, h _ (inSpace_take_equalities hv) htake, hdrop,
      Vec.zeros, Vec.zeros, List.replicate_append_replicate]
    rfl

/-! ## The Jacobian of a checked problem -/

/-- The problem with zeros for the values of its constraints and for the gradient of its
objective. -/
def withoutValues {α : Type} [Scalar α] (p : SlackForm α) : SlackForm α :=
  { p with
    objective := { p.objective with gradient := fun _ ↦ .ok (Vec.zeros p.variableCount) }
    equality := { p.equality with value := fun _ ↦ .ok (Vec.zeros p.equality.count) }
    inequality := { p.inequality with value := fun _ ↦ .ok (Vec.zeros p.inequality.count) } }

theorem jacobian_withoutValues (p : SlackForm Extended) (z : Vec Extended) :
    p.withoutValues.jacobian z = p.jacobian z := rfl

noncomputable def answersWithoutValues (hE : p.equality.AnswersJacobian p.variableCount x E)
    (hI : p.inequality.AnswersJacobian p.variableCount x I) : p.withoutValues.Answers x where
  gradient := Vec.zeros p.variableCount
  equality := {
    value := Vec.zeros p.equality.count
    jacobian := E
    value_eq := rfl
    jacobian_eq := hE.eq_ok
    isReal_value := Vec.IsReal.zeros _
    length_value := Vec.length_zeros _
    isReal_jacobian := hE.isReal
    wellFormed := hE.shape.wellFormed
    rows_eq := hE.shape.rows_eq
    cols_eq := hE.shape.cols_eq }
  inequality := {
    value := Vec.zeros p.inequality.count
    jacobian := I
    value_eq := rfl
    jacobian_eq := hI.eq_ok
    isReal_value := Vec.IsReal.zeros _
    length_value := Vec.length_zeros _
    isReal_jacobian := hI.isReal
    wellFormed := hI.shape.wellFormed
    rows_eq := hI.shape.rows_eq
    cols_eq := hI.shape.cols_eq }
  gradient_eq := rfl
  isReal_gradient := Vec.IsReal.zeros _
  length_gradient := Vec.length_zeros _

/-- **Inequalities do not make the Jacobian rank deficient.** At positive slacks a combination of
the rows of the scaled Jacobian is zero exactly if all multipliers of slacks are zero and the
combination of the rows of the equalities is zero. So the Jacobian has full row rank exactly if the
stacked Jacobian of the equalities has, and it has more rows than columns exactly if there are more
equalities than variables, whatever the inequalities and bounds are. -/
theorem inequalities_keep_rank (hchecked : q.checked = .ok p)
    (hinequality : p.affineInequality.IsReal) (hequality : p.affineEquality.IsReal)
    (hz : p.Interior z)
    (hE : p.equality.AnswersJacobian p.variableCount (z.take p.variableCount) E)
    (hI : p.inequality.AnswersJacobian p.variableCount (z.take p.variableCount) I) :
    ∃ J R, p.jacobian z = .ok J ∧ p.equalityRows (z.take p.variableCount) = .ok R
      ∧ (J.rows = p.constraintCount ∧ J.cols = p.dim)
      ∧ (∀ v, Vec.InSpace p.constraintCount v →
        (J.applyTransposed v = .ok (Vec.zeros p.dim) ↔
          v.drop p.equalityCount = Vec.zeros p.slackCount
          ∧ R.applyTransposed (v.take p.equalityCount) = .ok (Vec.zeros p.variableCount)))
      ∧ (J.HasFullRowRank ↔ R.HasFullRowRank)
      ∧ (J.cols < J.rows ↔ p.variableCount < p.equality.count + p.affineEquality.count) := by
  have hp : p.withoutValues.AffineParts := by
    obtain ⟨h₁, h₂, h₃, h₄⟩ :=
      affineParts_of_checkParts (checkParts_of_checked hchecked) hinequality hequality
    exact ⟨h₁, h₂, h₃, h₄⟩
  set a := answersWithoutValues hE hI
  have hs : Vec.InSpace p.slackCount (z.drop p.variableCount) :=
    ⟨hz.isReal.drop _, length_slacks hz.length_eq⟩
  have hrows := rows_jacobianOperator a (z.drop p.variableCount)
  have hcols := cols_jacobianOperator a (z.drop p.variableCount)
  have htall : p.withoutValues.dim < p.withoutValues.constraintCount ↔
      p.variableCount < p.equality.count + p.affineEquality.count := Nat.add_lt_add_iff_right
  rw [← hrows, ← hcols] at htall
  exact ⟨_, _, (jacobian_withoutValues p z).symm.trans (jacobian_eq hp hz.length_eq a),
    equalityRows_eq hp a, ⟨hrows, hcols⟩,
    fun v hv ↦ applyTransposed_jacobianOperator_iff hp a hs hz.coord_pos hv,
    hasFullRowRank_jacobianOperator_iff hp a hs hz.coord_pos, htall⟩

/-! ## A crowded parabola -/

/-- The parabola over the interval from zero to one with the equality `x² = 1` and with the linear
inequalities `x ≤ -1`, once more `x ≤ -1`, and `1.5 ≤ x`. -/
noncomputable def crowdedParabola : SlackForm Extended :=
  { squaredParabola with
    affineInequality := ⟨DenseMatrix.ofRows 1 [[1], [1], [-1]], [1, 1, real 1.5], rfl⟩ }

/-- The stacked Jacobian of its equalities at one half, with no rows in the second part. -/
noncomputable def crowdedEqualities : Operator Extended :=
  .block [1, 0] [1] [⟨0, 0, .dense (DenseMatrix.ofRows 1 [[real (0.5 + 0.5)]])⟩,
    ⟨1, 0, .dense (DenseMatrix.zeros 0 1)⟩]

theorem hasFullRowRank_crowdedEqualities : crowdedEqualities.HasFullRowRank := by
  change (crowdedEqualities.toMatrix.asMatrix 1 1).rank = 1
  refine (rank_eq_height_iff _).mpr fun v hv ↦ ?_
  have hcolumn := congrFun hv 0
  rw [mulVec, dotProduct, Fin.sum_univ_one] at hcolumn
  have hproduct : (0.5 + 0.5) * v 0 = 0 := hcolumn
  funext i
  rw [Subsingleton.elim i 0, Pi.zero_apply]
  linarith

/-- With five inequalities and bounds on one variable, of which two are the same and all together
cannot be satisfied, the Jacobian has six independent rows. -/
theorem crowdedParabola_keeps_rank : ∃ J, crowdedParabola.jacobian
    [real 0.5, real 1, real 1, real 1, real 1, real 1] = .ok J ∧ J.rows = 6 ∧ J.cols = 6
      ∧ J.HasFullRowRank := by
  have hinequality : crowdedParabola.affineInequality.IsReal :=
    ⟨DenseMatrix.isReal_ofRows (by simp [Vec.isReal_cons]), by
      simp [crowdedParabola, Vec.isReal_cons]⟩
  have hequality : crowdedParabola.affineEquality.IsReal :=
    ⟨DenseMatrix.isReal_zeros _ _, Vec.isReal_nil⟩
  have hz : crowdedParabola.Interior [real 0.5, real 1, real 1, real 1, real 1, real 1] := by
    refine ⟨by simp [Vec.isReal_cons], rfl, ?_⟩
    change ∀ a ∈ [real 1, real 1, real 1, real 1, real 1], 0 < a
    simp only [List.forall_mem_cons, zero_eq, real_lt]
    norm_num
  have hE : crowdedParabola.equality.AnswersJacobian 1 [real 0.5]
      (.dense (DenseMatrix.ofRows 1 [[real (0.5 + 0.5)]])) :=
    ⟨rfl, .dense (DenseMatrix.isReal_ofRows (by simp [Vec.isReal_cons])), .dense _, rfl, rfl⟩
  have hI : crowdedParabola.inequality.AnswersJacobian 1 [real 0.5]
      (.dense (DenseMatrix.zeros 0 1)) :=
    ⟨rfl, .dense (DenseMatrix.isReal_zeros _ _), .dense _, rfl, rfl⟩
  obtain ⟨J, R, hJ, hR, ⟨hrows, hcols⟩, -, hrank, -⟩ :=
    inequalities_keep_rank (q := crowdedParabola) rfl hinequality hequality hz hE hI
  have hequalities : Except.ok crowdedEqualities = (.ok R : Except Fault _) := hR
  cases hequalities
  exact ⟨J, hJ, hrows, hcols, hrank.mpr hasFullRowRank_crowdedEqualities⟩

end SlackForm

end LogBarrier
