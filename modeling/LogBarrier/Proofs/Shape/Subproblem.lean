import LogBarrier.Proofs.Barrier.Jacobian
import LogBarrier.Proofs.Shape.Search

/-!
# Subproblems without faults of shape

The functions of the user are *total* if they answer every point with as many variables as the
domain has dimensions, always in the shapes that are declared. Nothing is said about the numbers:
they may be infinite or missing.

The subproblem of a level is shaped then. The faults that are left are those of a slack which is not
positive, and they can only come from the barrier and from its second derivative. At an iterate with
positive slacks there is no fault at all.
-/

namespace LogBarrier

variable {α : Type} [Scalar α]

/-- The functions of the objective answer every point in the declared shapes, given the numbers of
nonlinear constraints. -/
structure Objective.Total (objective : Objective α) (equalities inequalities : ℕ) : Prop where
  value : ∀ x, x.length = objective.domain.dim → ∃ f, objective.value x = .ok f
  gradient : ∀ x, x.length = objective.domain.dim →
    ∃ g, objective.gradient x = .ok g ∧ g.length = objective.domain.dim
  hessian : ∀ x v w, x.length = objective.domain.dim → v.length = equalities →
    w.length = inequalities → ∃ op, objective.hessian x v w = .ok op
      ∧ op.HasShape objective.domain.dim objective.domain.dim

/-- The functions of the constraints answer every point in `n` variables in the declared shapes. -/
structure Constraints.Total (constraints : Constraints α) (n : ℕ) : Prop where
  value : ∀ x, x.length = n → ∃ c, constraints.value x = .ok c ∧ c.length = constraints.count
  jacobian : ∀ x, x.length = n → ∃ op, constraints.jacobian x = .ok op
    ∧ op.HasShape constraints.count n

theorem Constraints.total_none (n : ℕ) : (Constraints.none : Constraints α).Total n where
  value _ _ := ⟨_, rfl, rfl⟩
  jacobian _ hx := ⟨_, rfl, .dense _, rfl, hx⟩

namespace SlackForm

/-- The functions are total, and the linear constraints have a column for each variable. -/
structure Total (p : SlackForm α) : Prop where
  objective : p.objective.Total p.equality.count p.inequality.count
  equality : p.equality.Total p.variableCount
  inequality : p.inequality.Total p.variableCount
  cols_equality : p.affineEquality.matrix.cols = p.variableCount
  cols_inequality : p.affineInequality.matrix.cols = p.variableCount

variable {p : SlackForm α} {level : Level α} {x z v : Vec α} {allowed : Fault → Prop}

theorem ensures_split (hz : z.length = p.dim) :
    Ensures allowed (fun r ↦ r.1.length = p.variableCount ∧ r.2.length = p.slackCount)
      (p.split z) := by
  rw [split, if_pos hz]
  exact Ensures.ok ⟨length_variables hz, length_slacks hz⟩

/-- The slacks of an iterate are positive, unless the fault of a slack is allowed. -/
def PositiveUnless (allowed : Fault → Prop) (p : SlackForm α) (z : Vec α) : Prop :=
  allowed .slackNotPositive ∨ ∀ a ∈ z.drop p.variableCount, 0 < a

theorem PositiveUnless.ensures (h : p.PositiveUnless allowed z) :
    Ensures allowed (fun _ ↦ True) (requirePositive (z.drop p.variableCount)) := by
  rw [requirePositive, Fault.require]
  split
  next => exact Ensures.ok trivial
  next hnot =>
    refine Ensures.error (h.resolve_right fun hpositive ↦ hnot ?_)
    exact List.all_eq_true.mpr fun a ha ↦ decide_eq_true (hpositive a ha)

theorem ensures_requireMultipliers (hv : v.length = p.constraintCount) :
    Ensures allowed (fun _ ↦ True) (p.requireMultipliers v) := by
  rw [requireMultipliers, Fault.require, if_pos hv]
  exact Ensures.ok trivial

theorem ensures_value (hp : p.Total) (hz : z.length = p.dim) (hs : p.PositiveUnless allowed z) :
    Ensures allowed (fun _ ↦ True) (p.value level z) := by
  rw [value, split, if_pos hz, ok_bind]
  refine hs.ensures.bind fun _ _ ↦ ?_
  obtain ⟨f, hf⟩ := hp.objective.value (z.take p.variableCount) (length_variables hz)
  rw [hf]
  exact Ensures.ok trivial

theorem exists_gradient (hp : p.Total) (level : Level α) (hz : z.length = p.dim) :
    ∃ g, p.objective.gradient (z.take p.variableCount) = .ok g
      ∧ p.gradient level z = .ok (g ++ List.replicate p.slackCount (-level.parameter))
      ∧ g.length = p.variableCount := by
  obtain ⟨g, hg, hlength⟩ := hp.objective.gradient _ (length_variables hz)
  have hdim : (g ++ List.replicate p.slackCount (-level.parameter)).length = p.dim := by
    rw [List.length_append, List.length_replicate, hlength]
    rfl
  refine ⟨g, hg, ?_, hlength⟩
  rw [gradient, split, if_pos hz, ok_bind]
  dsimp only
  rw [hg, ok_bind, ← hdim]
  exact Vec.takeExactly_length _

theorem ensures_gradient (hp : p.Total) (hz : z.length = p.dim) :
    Ensures allowed (fun g ↦ g.length = p.dim) (p.gradient level z) := by
  obtain ⟨g, -, hgradient, hlength⟩ := exists_gradient hp level hz
  rw [hgradient]
  refine Ensures.ok ?_
  rw [List.length_append, List.length_replicate, hlength, dim]

theorem ensures_residual {system : AffineSystem α} (hcols : system.matrix.cols = p.variableCount)
    (hx : x.length = p.variableCount) :
    Ensures allowed (fun r ↦ r.length = system.count) (system.residual x) :=
  (DenseMatrix.ensures_mulVec (hx.trans hcols.symm)).bind fun _ hy ↦
    Vec.ensures_add (hy.trans system.rows_eq) rfl

theorem ensures_rowValues (hp : p.Total) (hx : x.length = p.variableCount) :
    Ensures allowed (fun r ↦ r.1.length = p.equalityCount ∧ r.2.length = p.slackCount)
      (p.rowValues x) := by
  refine (Ensures.of_exists (hp.equality.value x hx)).bind fun equality hequality ↦
    (ensures_residual hp.cols_equality hx).bind fun affineEquality haffineEquality ↦
      (Ensures.of_exists (hp.inequality.value x hx)).bind fun inequality hinequality ↦
        (ensures_residual hp.cols_inequality hx).bind fun affineInequality haffineInequality ↦
          Ensures.pure ⟨?_, ?_⟩
  · rw [List.length_append, hequality, haffineEquality, equalityCount]
  · simp only [List.length_append, upperResidual, lowerResidual, List.length_map, hinequality,
      haffineInequality, slackCount]

theorem constraints_eq_bind (hz : z.length = p.dim) :
    p.constraints z = p.rowValues (z.take p.variableCount) >>= fun r ↦
      Vec.takeExactly p.constraintCount
        (r.1 ++ List.zipWith (· + ·) r.2 (z.drop p.variableCount)) := by
  rw [constraints, split, if_pos hz, ok_bind]

theorem exists_constraints (hp : p.Total) (hz : z.length = p.dim) :
    ∃ equalities slacked, p.rowValues (z.take p.variableCount) = .ok (equalities, slacked)
      ∧ p.constraints z
        = .ok (equalities ++ List.zipWith (· + ·) slacked (z.drop p.variableCount))
      ∧ equalities.length = p.equalityCount ∧ slacked.length = p.slackCount := by
  obtain ⟨⟨equalities, slacked⟩, hrows, hequalities, hslacked⟩ :=
    (ensures_rowValues hp (length_variables hz)).exists_ok
  have hcount : (equalities ++ List.zipWith (· + ·) slacked (z.drop p.variableCount)).length
      = p.constraintCount := by
    rw [List.length_append, List.length_zipWith, hequalities, hslacked, length_slacks hz,
      Nat.min_self, constraintCount]
  refine ⟨equalities, slacked, hrows, ?_, hequalities, hslacked⟩
  rw [constraints_eq_bind hz, hrows, ok_bind, ← hcount]
  exact Vec.takeExactly_length _

theorem ensures_constraints (hp : p.Total) (hz : z.length = p.dim) :
    Ensures allowed (fun c ↦ c.length = p.constraintCount) (p.constraints z) := by
  obtain ⟨equalities, slacked, -, hconstraints, hequalities, hslacked⟩ := exists_constraints hp hz
  rw [hconstraints]
  refine Ensures.ok ?_
  rw [List.length_append, List.length_zipWith, hequalities, hslacked, length_slacks hz,
    Nat.min_self, constraintCount]

theorem ensures_scaling (hz : z.length = p.dim) :
    Ensures allowed (fun op ↦ op.HasShape p.dim p.dim) (p.scaling z) := by
  refine (ensures_split hz).bind fun r hr ↦ Ensures.pure ?_
  have hlength : (List.replicate p.variableCount (1 : α) ++ r.2).length = p.dim := by
    rw [List.length_append, List.length_replicate, hr.2, dim]
  exact ⟨.diagonal _, hlength, hlength⟩

/-! ## The Jacobian -/

theorem ensures_inequalityRows (hp : p.Total) (hx : x.length = p.variableCount) :
    Ensures allowed (fun op ↦ op.HasShape p.slackCount p.variableCount) (p.inequalityRows x) := by
  refine (Ensures.of_exists (hp.inequality.jacobian x hx)).bind fun nonlinear hnonlinear ↦
    (Operator.ensures_select 1 fun i hi ↦ lt_of_mem_upperBounded hi).bind fun upper hupper ↦
      (Operator.ensures_select (-1) fun i hi ↦ lt_of_mem_lowerBounded hi).bind fun lower hlower ↦ ?_
  have hops : ∀ op ∈ [nonlinear, .dense p.affineInequality.matrix, upper, lower],
      op.WellFormed ∧ op.cols = p.variableCount := by
    simp only [List.forall_mem_cons]
    exact ⟨⟨hnonlinear.wellFormed, hnonlinear.cols_eq⟩, ⟨.dense _, hp.cols_inequality⟩,
      ⟨hupper.wellFormed, hupper.cols_eq⟩, ⟨hlower.wellFormed, hlower.cols_eq⟩, nofun⟩
  refine (Grid.ensures_stack hops).bind fun grid hgrid ↦ Ensures.pure ?_
  have hshape := hgrid.toOperator
  refine ⟨hshape.wellFormed, hshape.rows_eq.trans ?_, hshape.cols_eq⟩
  simp only [List.map_cons, List.map_nil, Operator.total_cons, Operator.total_nil,
    hnonlinear.rows_eq, hupper.rows_eq, hlower.rows_eq, Operator.rows_dense,
    p.affineInequality.rows_eq, slackCount, AffineSystem.count]
  omega

theorem ensures_jacobian (hp : p.Total) (hz : z.length = p.dim) :
    Ensures allowed (fun op ↦ op.HasShape p.constraintCount p.dim) (p.jacobian z) := by
  refine (ensures_split hz).bind fun r hr ↦ (ensures_inequalityRows hp hr.1).bind fun rows hrows ↦
    (Ensures.of_exists (hp.equality.jacobian r.1 hr.1)).bind fun equality hequality ↦ ?_
  have haffine : (Operator.dense p.affineEquality.matrix).HasShape p.affineEquality.count
      p.variableCount := ⟨.dense _, p.affineEquality.rows_eq, hp.cols_equality⟩
  have hslack : (Operator.diagonal r.2).HasShape p.slackCount p.slackCount :=
    ⟨.diagonal _, hr.2, hr.2⟩
  have hgrid := Grid.fits_zeros (α := α) [p.equality.count, p.affineEquality.count, p.slackCount]
    [p.variableCount, p.slackCount]
  refine (hgrid.ensures_place (i := 0) (j := 0) (by simp) (by simp) hequality).bind
    fun grid hgrid ↦ (hgrid.ensures_place (i := 1) (j := 0) (by simp) (by simp) haffine).bind
      fun grid hgrid ↦ (hgrid.ensures_place (i := 2) (j := 0) (by simp) (by simp) hrows).bind
        fun grid hgrid ↦ (hgrid.ensures_place (i := 2) (j := 1) (by simp) (by simp) hslack).bind
          fun grid hgrid ↦ Ensures.pure ?_
  have hshape := hgrid.toOperator
  refine ⟨hshape.wellFormed, hshape.rows_eq.trans ?_, hshape.cols_eq.trans ?_⟩
  · simp only [Operator.total_cons, Operator.total_nil, constraintCount, equalityCount]
    omega
  · simp only [Operator.total_cons, Operator.total_nil, dim]
    omega

/-! ## The Hessian -/

theorem ensures_variableHessian (hp : p.Total) (hz : z.length = p.dim)
    (hv : v.length = p.constraintCount) :
    Ensures allowed (fun op ↦ op.HasShape p.variableCount p.variableCount)
      (p.variableHessian z v) := by
  have hequality : 0 + p.equality.count ≤ v.length := by
    rw [hv, constraintCount, equalityCount]
    omega
  have hinequality : p.equalityCount + p.inequality.count ≤ v.length := by
    rw [hv, constraintCount, slackCount]
    omega
  exact (ensures_requireMultipliers hv).bind fun _ _ ↦ (ensures_split hz).bind fun r hr ↦
    (Vec.ensures_slice hequality).bind fun equality hequality ↦
      (Vec.ensures_slice hinequality).bind fun inequality hinequality ↦
        Ensures.of_exists (hp.objective.hessian r.1 equality inequality hr.1 hequality hinequality)

theorem ensures_slackHessian (hz : z.length = p.dim) (hv : v.length = p.constraintCount)
    (hs : p.PositiveUnless allowed z) :
    Ensures allowed (fun w ↦ w.length = p.slackCount) (p.slackHessian level z v) := by
  have hslice : p.equalityCount + p.slackCount ≤ v.length := hv.ge
  refine (ensures_requireMultipliers hv).bind fun _ _ ↦ ?_
  rw [split, if_pos hz, ok_bind]
  refine hs.ensures.bind fun _ _ ↦ (Vec.ensures_slice hslice).bind
    fun multipliers hmultipliers ↦ Ensures.pure ?_
  rw [List.length_zipWith, length_slacks hz, hmultipliers, Nat.min_self]

theorem ensures_hessian (hp : p.Total) (hz : z.length = p.dim) (hv : v.length = p.constraintCount)
    (hs : p.PositiveUnless allowed z) :
    Ensures allowed (fun op ↦ op.HasShape p.dim p.dim) (p.hessian level z v) := by
  refine (ensures_split hz).bind fun r hr ↦ (ensures_variableHessian hp hz hv).bind
    fun ofVariables hvariables ↦ (ensures_slackHessian hz hv hs).bind fun ofSlacks hslacks ↦
      (Vec.ensures_mul hslacks hr.2).bind fun once honce ↦
        (Vec.ensures_mul honce hr.2).bind fun scaled hscaled ↦ ?_
  have hops : ∀ op ∈ [ofVariables, Operator.diagonal scaled], op.WellFormed := by
    simp only [List.forall_mem_cons]
    exact ⟨hvariables.wellFormed, .diagonal _, nofun⟩
  refine (Grid.ensures_blockDiagonal hops).bind fun grid hgrid ↦ Ensures.pure ?_
  have hshape := hgrid.toOperator
  refine ⟨hshape.wellFormed, hshape.rows_eq.trans ?_, hshape.cols_eq.trans ?_⟩
  · simp only [List.map_cons, List.map_nil, Operator.total_cons, Operator.total_nil,
      hvariables.rows_eq, Operator.rows_diagonal, hscaled, dim]
    omega
  · simp only [List.map_cons, List.map_nil, Operator.total_cons, Operator.total_nil,
      hvariables.cols_eq, Operator.cols_diagonal, hscaled, dim]
    omega

/-! ## The subproblem of a level -/

/-- All functions of the subproblem are defined for the iterate and the multipliers, in the sizes of
the subproblem. No entry of what the functions of the user answer is cut off. -/
structure EvaluatesAt (p : SlackForm α) (level : Level α) (z v : Vec α) : Prop where
  value : ∃ f, p.value level z = .ok f
  gradient : ∃ g, p.objective.gradient (z.take p.variableCount) = .ok g
    ∧ p.gradient level z = .ok (g ++ List.replicate p.slackCount (-level.parameter))
    ∧ g.length = p.variableCount
  constraints : ∃ equalities slacked,
    p.rowValues (z.take p.variableCount) = .ok (equalities, slacked)
    ∧ p.constraints z = .ok (equalities ++ List.zipWith (· + ·) slacked (z.drop p.variableCount))
    ∧ equalities.length = p.equalityCount ∧ slacked.length = p.slackCount
  jacobian : ∃ op, p.jacobian z = .ok op ∧ op.HasShape p.constraintCount p.dim
  variableHessian :
    ∃ op, p.variableHessian z v = .ok op ∧ op.HasShape p.variableCount p.variableCount
  slackHessian : ∃ d, p.slackHessian level z v = .ok d ∧ d.length = p.slackCount
  hessian : ∃ op, p.hessian level z v = .ok op ∧ op.HasShape p.dim p.dim
  scaling : ∃ op, p.scaling z = .ok op ∧ op.HasShape p.dim p.dim

theorem evaluatesAt (hp : p.Total) (level : Level α) (hz : z.length = p.dim)
    (hpositive : ∀ s ∈ z.drop p.variableCount, 0 < s) (hv : v.length = p.constraintCount) :
    p.EvaluatesAt level z v where
  value := by
    obtain ⟨f, hf, -⟩ := (ensures_value hp hz (.inr hpositive)).exists_ok
    exact ⟨f, hf⟩
  gradient := exists_gradient hp level hz
  constraints := exists_constraints hp hz
  jacobian := (ensures_jacobian hp hz).exists_ok
  variableHessian := (ensures_variableHessian hp hz hv).exists_ok
  slackHessian := (ensures_slackHessian hz hv (.inr hpositive)).exists_ok
  hessian := (ensures_hessian hp hz hv (.inr hpositive)).exists_ok
  scaling := (ensures_scaling hz).exists_ok

/-- The subproblem of a level faults only at slacks that are not positive. -/
theorem shaped_atLevel (hp : p.Total) (level : Level α) (hslack : allowed .slackNotPositive)
    (hpivots : Projector.DetectsZero α ∨ allowed .zeroPivot) :
    (p.atLevel level).Shaped allowed where
  pivots := hpivots
  objective _ hz := ensures_value hp hz (.inl hslack)
  gradient _ hz := ensures_gradient hp hz
  constraints _ hz := ensures_constraints hp hz
  jacobian _ hz := ensures_jacobian hp hz
  hessian _ _ hz hv := ensures_hessian hp hz hv (.inl hslack)
  scaling _ hz := ensures_scaling hz

end SlackForm

end LogBarrier
