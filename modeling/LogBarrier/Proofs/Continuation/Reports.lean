import LogBarrier.Proofs.Barrier.Certificate
import LogBarrier.Proofs.Continuation.Slacks
import LogBarrier.Proofs.Shape.Subproblem

/-!
# Reports of a continuation

What a call reports is a certificate for the iterate that it leaves. The report refers to the level
that has just been solved, whereas the control parameters are already those of the next one, except
for the multipliers: those that are handed over are the ones that the report is about.
-/

namespace LogBarrier

open Extended

structure ContinuationSetup.Shaped (setup : ContinuationSetup Extended) : Prop where
  objective : setup.objective.Shaped
  equality : setup.equality.Shaped setup.objective.domain.dim
  inequality : setup.inequality.Shaped setup.objective.domain.dim

namespace Continuation

/-! ## What a call keeps -/

section Frame

variable {α σ ε : Type} [Scalar α] (c : Continuation α σ ε)

theorem subproblem_step : c.step.2.subproblem = c.subproblem := by
  rw [step]
  dsimp only
  split <;> rfl

theorem subproblem_after (n : ℕ) : (c.after n).subproblem = c.subproblem := by
  induction n with
  | zero => rfl
  | succ n ih => exact (subproblem_step _).trans ih

theorem level_step : c.step.2.controls.level = c.controls.level
    ∨ c.step.2.controls.level = c.controls.level.decay decayRatio := by
  rw [step]
  dsimp only
  split
  · exact .inl rfl
  · exact .inr rfl

theorem complementarity_eq : c.complementarity =
    Vec.maxNorm (List.zipWith (· * ·) c.slack (c.controls.multipliers.drop
      c.subproblem.equalityCount)) := by
  rw [complementarity, Vec.maxNorm, ← List.map_uncurry_zip_eq_zipWith, List.foldl_map]
  rfl

end Frame

variable {c c' : TrustRegionContinuation Extended} {report : Report Extended}

theorem parameter_after {μ : ℝ} (h : c.controls.level.parameter = real μ) (hμ : 0 < μ) (n : ℕ) :
    ∃ ν, (c.after n).controls.level.parameter = real ν ∧ 0 < ν := by
  induction n with
  | zero => exact ⟨μ, h, hμ⟩
  | succ n ih =>
    obtain ⟨ν, hν, hpos⟩ := ih
    rcases level_step (c.after n) with hlevel | hlevel
    · exact ⟨ν, (congrArg Level.parameter hlevel).trans hν, hpos⟩
    · refine ⟨ν * 0.2, ?_, by positivity⟩
      rw [after, hlevel, Level.decay, hν]
      rfl

/-! ## Certificates -/

/-- The report is a certificate for the current variables and slacks with the current multipliers,
at the level that was solved last. -/
structure CertifiedBy (c : TrustRegionContinuation Extended) (report : Report Extended)
    (μ ω η : ℝ) : Prop where
  level : ∃ level, c.solvedLevel = some level ∧ level.parameter = real μ
  optimality : report.optimality = real ω
  violation : report.violation = real η
  interior : c.subproblem.Interior c.iterate
  isReal_multipliers : Vec.IsReal c.controls.multipliers
  length_multipliers : c.controls.multipliers.length = c.subproblem.constraintCount
  certificate : ∃ a : c.subproblem.Answers c.point,
    c.subproblem.Certificate μ ω η a (Vec.coord c.slack) c.controls.multipliers.coord

/-- A sound continuation is certified by the report of a call that succeeds. -/
theorem Sound.certified {μ : ℝ} (hc : c.Sound {}) (hparts : c.subproblem.checkParts = .ok ())
    (hshaped : c.subproblem.Shaped) (hμ : c.controls.level.parameter = real μ)
    (h : c.step = (.ok report, c')) : ∃ ω η, c'.CertifiedBy report μ ω η := by
  obtain ⟨hinterior, -, hmultipliers⟩ := hc.solved
  cases hsolved : c.solved.1 with
  | error failure =>
    rw [step_of_solved_error hc.solver hsolved] at h
    cases h
  | ok inner =>
    rw [step_of_solved_ok hc.solver hsolved] at h
    cases h
    have hsolve : TrustRegion.solve c.task.problem {} c.task.bounds c.task.iterate
        c.task.multipliers c.task.radius c.task.penalty c.task.limit = (.ok inner, c.solved.2) :=
      Prod.ext hsolved rfl
    have hdescribes : inner.Describes (c.subproblem.atLevel c.controls.level) c.solved.2.iterate :=
      TrustRegion.describes_of_solve_eq_ok hsolve
    have hp := SlackForm.affineParts_of_checkParts hparts hc.subproblem.affineInequality
      hc.subproblem.affineEquality
    have hv := hmultipliers inner hsolved
    obtain ⟨a⟩ : Nonempty (c.subproblem.Answers
        (c.solved.2.iterate.take c.subproblem.variableCount)) := by
      obtain ⟨g, J, _, _, _, _, residual, hg, hJ, -, -, -, -, -, -, hresidual, -⟩ := hdescribes
      exact SlackForm.nonempty_answers hc.subproblem hshaped hinterior hg hresidual hJ
    obtain ⟨ω, η, hω, hη, hcertificate⟩ :=
      SlackForm.certificate_of_describes hp hμ hinterior a hv hdescribes
    exact ⟨ω, η, {
      level := ⟨c.controls.level, rfl, hμ⟩
      optimality := hω
      violation := hη
      interior := hinterior
      isReal_multipliers := hv
      length_multipliers := SlackForm.length_multipliers_of_describes hp hinterior a hdescribes
      certificate := ⟨a, hcertificate⟩ }⟩

theorem CertifiedBy.complementarity {μ ω η : ℝ} (h : c.CertifiedBy report μ ω η) (hμ : 0 ≤ μ)
    (hpos : 0 < c.subproblem.slackCount) :
    ∃ κ, c.complementarity = real κ ∧ |κ - μ| ≤ ω := by
  obtain ⟨a, hcertificate⟩ := h.certificate
  rw [complementarity_eq]
  exact hcertificate.exists_product hμ (h.interior.isReal.drop _)
    (SlackForm.length_slacks h.interior.length_eq) h.isReal_multipliers h.length_multipliers hpos

theorem Built.shaped {setup : ContinuationSetup Extended}
    (hsetup : setup.Shaped) (h : Built setup (InnerSolver.trustRegion {}) c) :
    c.subproblem.Shaped := by
  have hcount : c.subproblem.variableCount = setup.objective.domain.dim := by
    rw [SlackForm.variableCount, h.objective]
  constructor
  · rw [h.objective]
    exact hsetup.objective
  · rw [h.equality, hcount]
    exact hsetup.equality
  · rw [h.inequality, hcount]
    exact hsetup.inequality

/-- **Certificates.** Whenever a call succeeds, after any calls before, its report is a certificate
for the original problem: the optimality bounds the gradient of the Lagrangian and the distance of
the products of slacks and multipliers from the parameter of the level that was solved, and the
violation bounds the residuals of the constraints and of the bounds. So the complementarity is near
the parameter, too. -/
theorem reports_are_certificates {setup : ContinuationSetup Extended}
    {journals : List (Journal Extended)} {c₀ : TrustRegionContinuation Extended}
    (hsetup : setup.RealValued) (hshaped : setup.Shaped)
    (hparameter : 0 < setup.options.initialParameter)
    (hc₀ : ofSetup setup (InnerSolver.trustRegion {}) journals = .ok c₀) {n : ℕ}
    (h : (c₀.after n).step = (.ok report, c)) :
    ∃ μ ω η, 0 < μ ∧ c.CertifiedBy report μ ω η
      ∧ (0 < c.subproblem.slackCount → ∃ κ, c.complementarity = real κ ∧ |κ - μ| ≤ ω) := by
  have hbuilt := built_of_ofSetup hc₀
  obtain ⟨μ₀, hμ₀⟩ := hsetup.parameter
  have hpos₀ : 0 < μ₀ := by
    rw [hμ₀] at hparameter
    exact hparameter
  obtain ⟨μ, hμ, hpos⟩ := parameter_after (hbuilt.parameter.trans hμ₀) hpos₀ n
  have hparts : (c₀.after n).subproblem.checkParts = .ok () := by
    rw [subproblem_after]
    exact hbuilt.checked
  have hshapedAfter : (c₀.after n).subproblem.Shaped := by
    rw [subproblem_after]
    exact hbuilt.shaped hshaped
  obtain ⟨ω, η, hcertified⟩ :=
    ((hbuilt.sound hsetup).after n).certified hparts hshapedAfter hμ h
  exact ⟨μ, ω, η, hpos, hcertified, hcertified.complementarity hpos.le⟩

/-! ## A parabola with an anchor

With the linear equality and the bound there are as many constraints as variables and slacks. So the
first trial step is a Newton step, it satisfies all constraints, and the first call ends there. -/

section Anchored

open SlackForm

noncomputable def halfLine : Box Extended := ⟨[0], [Scalar.infinity], rfl, Nat.one_pos⟩

/-- The parabola over the half line, with the linear equality `x = 1`. -/
noncomputable def anchored : SlackForm Extended :=
  { parabolaOver halfLine with affineEquality := ⟨DenseMatrix.ofRows 1 [[1]], [-1], rfl⟩ }

/-- The Jacobian where the slack is one. -/
noncomputable def anchoredRows : DenseMatrix Extended :=
  DenseMatrix.ofRows 2 [[real 1, real 0], [real (-1), real 1]]

theorem isReal_anchoredRows : anchoredRows.IsReal :=
  DenseMatrix.isReal_ofRows (by simp [Vec.isReal_cons])

theorem requirePositive_singleton {s : ℝ} (hs : 0 < s) : requirePositive [real s] = .ok () :=
  requirePositive_eq_ok_iff.mpr (List.forall_mem_singleton.mpr (real_lt.mpr hs))

variable {level : Level Extended} {p : Projector Extended} {point : Point Extended}
  {trial : Trial Extended} {v : Vec Extended} {x : ℝ}

/-! ### Its projections -/

theorem exists_projector_anchored : ∃ p, Projector.ofMatrix anchoredRows = .ok p := by
  refine Projector.exists_ofMatrix isReal_anchoredRows.transpose (by decide) le_rfl ?_ one_pos
    fun q r h i hi ↦ ?_
  · change ((2 : ℕ) : ℝ) < _
    norm_num
  have hgram : ∀ i < 2, ∀ j < 2, anchoredRows.transpose.coeff 0 i * anchoredRows.transpose.coeff 0 j
      + anchoredRows.transpose.coeff 1 i * anchoredRows.transpose.coeff 1 j =
        r.coeff 0 i * r.coeff 0 j + r.coeff 1 i * r.coeff 1 j := by
    intro i hi j hj
    have hsum := h.gram hi hj
    change ∑ l ∈ Finset.range 2, _ = ∑ k ∈ Finset.range 2, _ at hsum
    rwa [Finset.sum_range_succ, Finset.sum_range_one, Finset.sum_range_succ,
      Finset.sum_range_one] at hsum
  have hfirst : (1 * 1 + 0 * 0 : ℝ) = r.coeff 0 0 * r.coeff 0 0 + r.coeff 1 0 * r.coeff 1 0 :=
    hgram 0 two_pos 0 two_pos
  have hmixed : (1 * -1 + 0 * 1 : ℝ) = r.coeff 0 0 * r.coeff 0 1 + r.coeff 1 0 * r.coeff 1 1 :=
    hgram 0 two_pos 1 one_lt_two
  have hsecond : (-1 * -1 + 1 * 1 : ℝ) = r.coeff 0 1 * r.coeff 0 1 + r.coeff 1 1 * r.coeff 1 1 :=
    hgram 1 one_lt_two 1 one_lt_two
  rw [h.triangular 1 (by decide) 0 one_pos] at hfirst hmixed
  have hpivot : r.coeff 0 0 * r.coeff 0 0 = 1 := by linarith
  have hproduct : r.coeff 0 0 * r.coeff 0 1 = -1 := by linarith
  have hcorner : r.coeff 0 1 * r.coeff 0 1 = 1 := by
    calc r.coeff 0 1 * r.coeff 0 1
        = r.coeff 0 0 * r.coeff 0 0 * (r.coeff 0 1 * r.coeff 0 1) := by rw [hpivot, one_mul]
      _ = r.coeff 0 0 * r.coeff 0 1 * (r.coeff 0 0 * r.coeff 0 1) := by ring
      _ = 1 := by rw [hproduct]; norm_num
  obtain rfl | rfl : i = 0 ∨ i = 1 := by
    have : i < 2 := hi
    omega
  · exact (abs_eq zero_le_one).mpr (mul_self_eq_one_iff.mp (by linarith))
  · exact (abs_eq zero_le_one).mpr (mul_self_eq_one_iff.mp (by linarith))

theorem mulVec_anchored (x y : ℝ) :
    anchoredRows.mulVec [real x, real y] = .ok [real x, real (y - x)] := by
  change Except.ok [real (1 * x + 0 * y), real (-1 * x + 1 * y)] = _
  ring_nf

theorem trMulVec_anchored (x y : ℝ) :
    anchoredRows.trMulVec [real x, real y] = .ok [real (x - y), real y] := by
  change Except.ok [real (0 + 1 * x + -1 * y), real (0 + 0 * x + 1 * y)] = _
  ring_nf

theorem inSpace_pair (x y : ℝ) : Vec.InSpace 2 [real x, real y] :=
  ⟨by simp [Vec.isReal_cons], rfl⟩

theorem coefficients_anchored (hp : p.IsExact anchoredRows) (x y : ℝ) :
    p.coefficients [real x, real y] = .ok [real (x + y), real y] := by
  have hrows := trMulVec_anchored (x + y) y
  rw [add_sub_cancel_right] at hrows
  have hzero := mulVec_anchored 0 0
  rw [sub_zero] at hzero
  have hsum : Vec.add [real 0, real 0] [real x, real y] = .ok [real x, real y] := by
    change Except.ok [real (0 + x), real (0 + y)] = _
    rw [zero_add, zero_add]
  exact (hp.split_eq (inSpace_pair _ _) hrows (inSpace_pair 0 0) hzero hsum).2

theorem minNormSolution_anchored (hp : p.IsExact anchoredRows) (x : ℝ) :
    p.minNormSolution [real x, real (-x)] = .ok [real x, real 0] := by
  have hrows := trMulVec_anchored x 0
  rw [sub_zero] at hrows
  have hsolves := mulVec_anchored x 0
  rw [zero_sub] at hsolves
  exact hp.minNormSolution_eq (inSpace_pair _ _) hrows hsolves

/-- The null space is trivial. -/
theorem eq_zeros_of_inNullSpace (hp : p.IsExact anchoredRows) {y : Vec Extended}
    (h : p.InNullSpace y) : y = Vec.zeros 2 := by
  obtain ⟨hspace, -⟩ := hp.inNullSpace_iff.mp h
  have hzero := (hp.mulVec_eq_zeros_iff hspace).mpr h
  obtain ⟨f, rfl⟩ := hspace.exists_eq
  rw [Vec.zeros_eq_ofCoords] at hzero ⊢
  have hmapped := (mulVec_anchored (f 0) (f 1)).symm.trans hzero
  change Except.ok _ = Except.ok [real 0, real 0] at hmapped
  simp only [Except.ok.injEq, List.cons.injEq, real_inj, and_true] at hmapped
  obtain ⟨hfirst, hsecond⟩ := hmapped
  change [real (f 0), real (f 1)] = [real 0, real 0]
  rw [hfirst, sub_zero] at hsecond
  rw [hfirst, hsecond]

/-! ### Its functions -/

noncomputable def anchoredAnswers (x : ℝ) : anchored.Answers [real x] :=
  { parabolaAnswers (rfl : halfLine.dim = 1) x with }

theorem affineParts_anchored : anchored.AffineParts where
  inequality := ⟨DenseMatrix.isReal_zeros _ _, Vec.isReal_nil⟩
  equality := ⟨DenseMatrix.isReal_ofRows (by simp [Vec.isReal_cons]),
    by simp [anchored, Vec.isReal_cons]⟩
  cols_inequality := rfl
  cols_equality := rfl

theorem jacobian_anchored (x : ℝ) :
    ∃ op, anchored.jacobian [real x, real 1] = .ok op ∧ op.toMatrix = anchoredRows := by
  have hcolumns : (anchored.jacobianOperator (anchoredAnswers x) [real 1]).toMatrix.columns =
      anchoredRows.columns := by
    change [[real 1, real (-1 * 1)], [real 0, real 1]] = [[real 1, real (-1)], [real 0, real 1]]
    rw [mul_one]
  refine ⟨_, jacobian_eq (z := [real x, real 1]) affineParts_anchored rfl (anchoredAnswers x),
    DenseMatrix.ext_entry rfl rfl fun i _ j _ ↦ ?_⟩
  exact congrArg (fun columns ↦ (columns.getD j []).getD i 0) hcolumns

theorem value_anchored {μ : ℝ} (hlevel : level.parameter = real μ) (x : ℝ) :
    anchored.value level [real x, real 1] = .ok (real ((x - 2) * (x - 2))) := by
  change (requirePositive [real 1] >>= _) = _
  rw [requirePositive_singleton one_pos]
  change Except.ok (real ((x - 2.0) * (x - 2.0)) - level.parameter * (0 + Scalar.ln (real 1))) = _
  rw [ln_real one_pos, hlevel, zero_eq, real_add, real_mul, real_sub]
  norm_num

theorem gradient_anchored {μ : ℝ} (hlevel : level.parameter = real μ) (x : ℝ) :
    anchored.gradient level [real x, real 1] = .ok [real (2 * (x - 2)), real (-μ)] := by
  change Except.ok [real (2.0 * (x - 2.0)), -level.parameter] = _
  rw [hlevel, real_neg]
  norm_num

theorem constraints_anchored (x : ℝ) :
    anchored.constraints [real x, real 1] = .ok [real (x - 1), real (-(x - 1))] := by
  change Except.ok [real (1 * x + -1), real (0 - x + 1)] = _
  ring_nf

theorem hessian_anchored {μ : ℝ} (hlevel : level.parameter = real μ) {H : Operator Extended}
    (h : anchored.hessian level [real x, real 1] [real 0, real 0] = .ok H) (t : ℝ) :
    H.apply [real t, real 0] = .ok [real (2 * t), real 0] := by
  have hslack : anchored.slackHessian level [real x, real 1] [real 0, real 0] = .ok [real μ] := by
    change (requirePositive [real 1] >>= _) = _
    rw [requirePositive_singleton one_pos]
    change Except.ok [slackCurvature level.parameter (real 1) (real 0)] = _
    rw [slackCurvature, zero_eq, if_neg (fun hlt ↦ lt_irrefl _ (real_lt.mp hlt)), hlevel, real_mul,
      mul_one, real_div one_ne_zero, div_one]
  change (anchored.slackHessian level [real x, real 1] [real 0, real 0] >>= _) = _ at h
  rw [hslack] at h
  cases h
  change Except.ok [real (0 + 2.0 * t), real (0 + 0 * (μ * 1 * 1))] = _
  norm_num

/-! ### Its points -/

/-- What is known of the anchored parabola at an iterate. -/
structure AnchoredAt (point : Point Extended) (x μ : ℝ) : Prop where
  objective : point.objective = real ((x - 2) * (x - 2))
  residual : point.residual = [real (x - 1), real (-(x - 1))]
  gradient : point.gradient = [real (2 * (x - 2)), real (-μ)]
  jacobian : point.jacobian = anchoredRows
  projector : point.projector.IsExact anchoredRows
  optimality : point.optimality = 0
  violation : point.violation = real |x - 1|

theorem anchoredAt_of_fresh {μ : ℝ} (hlevel : level.parameter = real μ)
    (hz : point.iterate = [real x, real 1]) (h : point.Fresh (anchored.atLevel level) v) :
    AnchoredAt point x μ := by
  obtain ⟨hobjective, hresidual, hgradient, ⟨op, hop, hjacobian⟩, hprojector, ⟨y, hy, hmultipliers⟩,
    -, ⟨w, sum, hw, hsum, hoptimality⟩, hviolation⟩ := h
  rw [hz] at hobjective hresidual hgradient hop
  obtain ⟨_, hop', hmatrix⟩ := jacobian_anchored x
  obtain rfl := Except.ok.inj (hop.symm.trans hop')
  rw [hmatrix] at hjacobian
  rw [hjacobian] at hprojector hw
  have hexact : point.projector.IsExact anchoredRows :=
    (Projector.belongsTo_of_ofMatrix hprojector).isExact isReal_anchoredRows
  have hslope := Except.ok.inj (hgradient.symm.trans (gradient_anchored hlevel x))
  have hrest := Except.ok.inj (hresidual.symm.trans (constraints_anchored x))
  -- The multipliers cancel the gradient.
  rw [hslope, coefficients_anchored hexact] at hy
  cases hy
  rw [hmultipliers] at hw
  cases hw.symm.trans (trMulVec_anchored (-(2 * (x - 2) + -μ)) (- -μ))
  rw [hslope] at hsum
  cases hsum
  exact {
    objective := Except.ok.inj (hobjective.symm.trans (value_anchored hlevel x))
    residual := hrest
    gradient := hslope
    jacobian := hjacobian
    projector := hexact
    optimality := by
      rw [hoptimality]
      change real (max (max 0 |2 * (x - 2) + (-(2 * (x - 2) + -μ) - - -μ)|) |-μ + - -μ|) = real 0
      norm_num
    violation := by
      rw [hviolation, hrest]
      change real (max (max 0 |x - 1|) |-(x - 1)|) = _
      rw [abs_neg, max_eq_right (abs_nonneg (x - 1)), max_self] }

theorem interior_anchored (x : ℝ) : anchored.Interior [real x, real 1] where
  isReal := by simp [Vec.isReal_cons]
  length_eq := rfl
  positive := List.forall_mem_singleton.mpr (real_lt.mpr one_pos)

/-- The anchored parabola, from one half. -/
noncomputable def anchoredSetup : ContinuationSetup Extended where
  objective := anchored.objective
  affineEquality := some (DenseMatrix.ofRows 1 [[1]], [-1])
  initial := [0.5]
  multipliers := some [0, 0]

theorem realValued_anchoredSetup : anchoredSetup.RealValued where
  objective := {
    value := realValued_parabolaSetup.objective.value
    gradient := realValued_parabolaSetup.objective.gradient
    hessian := realValued_parabolaSetup.objective.hessian }
  inequality := Constraints.realValued_none
  equality := Constraints.realValued_none
  affineInequality _ _ h := nomatch h
  affineEquality _ _ h := by
    cases h
    exact ⟨affineParts_anchored.equality.matrix, affineParts_anchored.equality.offset⟩
  initial := realValued_parabolaSetup.initial
  multipliers _ h := by
    cases h
    exact Vec.IsReal.replicate isReal_zero 2
  parameter := realValued_parabolaSetup.parameter

theorem shaped_anchoredSetup : anchoredSetup.Shaped where
  objective _ _ _ h := by
    obtain ⟨a, -, h⟩ := bind_eq_ok_iff.mp h
    cases h
    rfl
  equality := Constraints.shaped_none _
  inequality := Constraints.shaped_none _

theorem ofSetup_anchored : ofSetup anchoredSetup (InnerSolver.trustRegion {}) [] =
    .ok (anchoredSetup.begun (InnerSolver.trustRegion {}) [] anchored [0, 0]) := rfl

theorem realValued_anchored : anchored.RealValued :=
  (built_of_ofSetup ofSetup_anchored).realValued realValued_anchoredSetup

theorem total_anchored : anchored.Total where
  objective := {
    value := fun x hx ↦ by
      obtain ⟨a, rfl⟩ := List.length_eq_one_iff.mp hx
      exact ⟨_, rfl⟩
    gradient := fun x hx ↦ by
      obtain ⟨a, rfl⟩ := List.length_eq_one_iff.mp hx
      exact ⟨_, rfl, rfl⟩
    hessian := fun _ _ _ _ _ _ ↦ ⟨_, rfl, .dense _, rfl, rfl⟩ }
  equality := Constraints.total_none _
  inequality := Constraints.total_none _
  cols_equality := rfl
  cols_inequality := rfl

theorem shaped_anchored (level : Level Extended) :
    (anchored.atLevel level).Shaped (· = .slackNotPositive) :=
  shaped_atLevel total_anchored level rfl (.inl Projector.detectsZero)

theorem exists_complete_anchored (hlevel : level.parameter.IsReal) (x : ℝ)
    (given : Option (Vec Extended))
    (hgiven : ∀ v, given = some v → Vec.IsReal v ∧ v.length = anchored.constraintCount)
    (objective : Extended) (residual : Vec Extended) :
    ∃ point, Point.complete (anchored.atLevel level) [real x, real 1] objective residual given
      = .ok point := by
  obtain ⟨op, hop, hmatrix⟩ := jacobian_anchored x
  obtain ⟨p, hp⟩ := exists_projector_anchored
  rw [← hmatrix] at hp
  refine Point.exists_complete (fun cause h ↦ ?_) hop hp
  exact noSlackFault_complete realValued_anchored hlevel (interior_anchored x)
    (fun v hv ↦ (hgiven v hv).1) objective residual cause h
    (Point.faultsWithin_complete (shaped_anchored level) rfl (fun v hv ↦ (hgiven v hv).2)
      objective residual cause h)

/-! ### The first round -/

theorem normalStep_anchored {μ : ℝ} (h : AnchoredAt point 0.5 μ) :
    Trial.normalStep {} (stepBox anchored) point (real 1.0) =
      .ok ([real 0.5, real 0], .newton) := by
  have hnewton : Vec.neg [real (0.5 - 1), real 0] = [real 0.5, real 0] := by
    change [real (-(0.5 - 1)), real (-0)] = _
    norm_num
  have hlower : Vec.scale (stepBox anchored).lower (real 0.5) =
      [negInf, real (-0.995 * 0.5)] := by
    change [negInf * real 0.5, real (-0.995 * 0.5)] = _
    rw [negInf_mul_real (by norm_num)]
  have hupper : Vec.scale (stepBox anchored).upper (real 0.5) = [posInf, posInf] := by
    change [posInf * real 0.5, posInf * real 0.5] = _
    rw [posInf_mul_real (by norm_num)]
  have hbox : Vec.inBox [real 0.5, real 0] [negInf, real (-0.995 * 0.5)] [posInf, posInf] =
      true := by
    norm_num [Vec.inBox]
  have hball : Vec.norm [real 0.5, real 0] ≤ real (0.8 * 1.0) := by
    rw [Vec.norm_pair, real_le, Real.sqrt_le_iff]
    norm_num
  rw [Trial.normalStep, NormalStep.compute, h.residual, minNormSolution_anchored h.projector,
    ok_bind, hnewton]
  refine if_pos ⟨?_, hball⟩
  change Vec.inBox _ (Vec.scale _ (real 0.5)) (Vec.scale _ (real 0.5)) = true
  rw [hlower, hupper, hbox]

noncomputable def anchoredLevel : Level Extended := ⟨0.1, 0.1⟩

theorem parameter_anchored : anchoredLevel.parameter = real 0.1 := rfl

theorem realValued_anchoredLevel : (anchored.atLevel anchoredLevel).RealValued :=
  realValued_atLevel realValued_anchored ⟨_, parameter_anchored⟩

theorem exists_start_anchored : ∃ s, TrustRegion.start (anchored.atLevel anchoredLevel)
    [real 0.5, real 1] [real 0, real 0] (real 1.0) (real 1.0) = .ok s := by
  have hgiven : ∀ v, some [real 0, real 0] = some v →
      Vec.IsReal v ∧ v.length = anchored.constraintCount := by
    rintro v ⟨⟩
    exact ⟨(inSpace_pair 0 0).isReal, rfl⟩
  obtain ⟨point, hpoint⟩ := exists_complete_anchored ⟨_, parameter_anchored⟩ 0.5 _ hgiven
    (real ((0.5 - 2) * (0.5 - 2))) [real (0.5 - 1), real (-(0.5 - 1))]
  refine ⟨⟨point, real 1.0, real 1.0, 0⟩, ?_⟩
  rw [TrustRegion.start, Point.evaluate]
  change ((Failure.ofFault (anchored.value anchoredLevel [real 0.5, real 1]) >>= fun objective ↦
    Failure.ofFault (anchored.constraints [real 0.5, real 1]) >>= fun residual ↦
      Point.complete (anchored.atLevel anchoredLevel) [real 0.5, real 1] objective residual
        (some [real 0, real 0])) >>= _) = _
  rw [value_anchored parameter_anchored, constraints_anchored]
  simp only [Failure.ofFault, ok_bind]
  rw [hpoint]
  rfl

theorem evaluated_anchored {μ : ℝ} (hlevel : level.parameter = real μ)
    (hz : point.iterate = [real 0.5, real 1])
    (h : trial.Evaluated (anchored.atLevel level) point)
    (hstep : trial.step = [real 0.5, real 0]) :
    trial.next = [real 1, real 1] ∧ trial.objective = real 1 ∧ trial.residual = [real 0, real 0] := by
  obtain ⟨scaling, change, hscaling, hchange, hadd⟩ := h.next
  rw [hz] at hscaling hadd
  cases hscaling
  have hchange' : (Operator.diagonal [1, real 1]).apply [real 0.5, real 0] =
      .ok [real 0.5, real 0] := by
    change Except.ok [real (0.5 * 1), real (0 * 1)] = _
    rw [mul_one, mul_one]
  have hadd' : Vec.add [real 0.5, real 1] [real 0.5, real 0] = .ok [real 1, real 1] := by
    change Except.ok [real (0.5 + 0.5), real (1 + 0)] = _
    norm_num
  rw [hstep] at hchange
  obtain rfl := Except.ok.inj (hchange.symm.trans hchange')
  have hnext : trial.next = [real 1, real 1] := Except.ok.inj (hadd.symm.trans hadd')
  have hobjective := h.objective
  have hresidual := h.residual
  rw [hnext] at hobjective hresidual
  refine ⟨hnext, ?_, ?_⟩
  · rw [Except.ok.inj (hobjective.symm.trans (value_anchored hlevel 1))]
    norm_num
  · rw [Except.ok.inj (hresidual.symm.trans (constraints_anchored 1))]
    norm_num

theorem gain_anchored {μ : ℝ} (hat : AnchoredAt point 0.5 μ) {penalty : Extended}
    (h : trial.Judged {} point penalty) (hstep : trial.step = [real 0.5, real 0]) :
    trial.feasibilityGain = Vec.norm point.residual := by
  obtain ⟨image, linearized, himage, hlinearized, hgain⟩ := h.gain
  rw [hstep, hat.jacobian] at himage
  obtain rfl := Except.ok.inj (himage.symm.trans (mulVec_anchored 0.5 0))
  rw [hat.residual] at hlinearized
  have hsum : Vec.add [real 0.5, real (0 - 0.5)] [real (0.5 - 1), real (-(0.5 - 1))] =
      .ok [real 0, real 0] := by
    change Except.ok [real (0.5 + (0.5 - 1)), real (0 - 0.5 + -(0.5 - 1))] = _
    norm_num
  obtain rfl := Except.ok.inj (hlinearized.symm.trans hsum)
  have hlarge : (1e-16 : ℝ) ≤ √((0.5 - 1) * (0.5 - 1) + -(0.5 - 1) * -(0.5 - 1)) :=
    Real.le_sqrt_of_sq_le (by norm_num)
  rw [hgain, hat.residual, Vec.norm_pair, Vec.norm_pair, mul_zero, add_zero, Real.sqrt_zero,
    real_sub, sub_zero, Trial.minFeasibilityGain, ofScientific_eq, maxNum_real, max_eq_left hlarge]

theorem model_anchored {μ : ℝ} (hat : AnchoredAt point 0.5 μ)
    (hhessian : ∀ t, point.hessian.apply [real t, real 0] = .ok [real (2 * t), real 0])
    {penalty : Extended} (h : trial.Judged {} point penalty)
    (hstep : trial.step = [real 0.5, real 0]) : trial.model = real (-1.25) := by
  obtain ⟨image, curvature, slope, himage, hcurvature, hslope, hmodel⟩ := h.model
  rw [hstep] at himage hcurvature hslope
  obtain rfl := Except.ok.inj (himage.symm.trans (hhessian 0.5))
  rw [hat.gradient] at hslope
  cases hcurvature
  cases hslope
  rw [hmodel]
  change real (0.5 * (0 + 2 * 0.5 * 0.5 + 0 * 0) + (0 + 2 * (0.5 - 2) * 0.5 + -μ * 0)) = _
  norm_num

/-- The model is exact at the end of the step. -/
theorem actual_anchored {μ : ℝ} (hat : AnchoredAt point 0.5 μ)
    (hhessian : ∀ t, point.hessian.apply [real t, real 0] = .ok [real (2 * t), real 0])
    (h : trial.Judged {} point (real 1.0)) (hstep : trial.step = [real 0.5, real 0])
    (hobjective : trial.objective = real 1) (hresidual : trial.residual = [real 0, real 0]) :
    trial.actual = trial.predicted := by
  have hmodel := model_anchored hat hhessian h hstep
  have hnot : ¬real 0 < real (-1.25) := fun hlt ↦ absurd (real_lt.mp hlt) (by norm_num)
  have hpenalty : trial.penalty = real 1.0 := by
    rw [h.penalty, hmodel, Trial.raisedPenalty, zero_eq, if_neg hnot]
  rw [h.actual, h.predicted, hmodel, gain_anchored hat h hstep, hpenalty, hobjective, hresidual,
    hat.objective, hat.residual, Vec.norm_pair, Vec.norm_pair, mul_zero, add_zero, Real.sqrt_zero]
  simp only [real_mul, real_add, real_sub, real_neg]
  refine congrArg real ?_
  linarith

section FirstRound

variable {s : TrustRegion.State Extended}
  (hs : TrustRegion.start (anchored.atLevel anchoredLevel) [real 0.5, real 1] [real 0, real 0]
    (real 1.0) (real 1.0) = .ok s)

include hs

/-- The start violates the linear equality. -/
theorem goesOn_anchored : TrustRegion.GoesOn (anchored.atLevel anchoredLevel) {} s := by
  obtain ⟨hz, hfresh, hrounds⟩ := TrustRegion.start_eq_ok hs
  have hat := anchoredAt_of_fresh parameter_anchored hz hfresh
  have hradius := TrustRegion.radius_of_start hs
  constructor
  · have hviolation : ¬s.point.violation < real 0.1 := by
      rw [hat.violation, real_lt]
      norm_num
    have hfew : ¬anchored.maxIterations < s.rounds := by
      change ¬1000 < s.rounds
      omega
    change (decide (s.point.optimality < real 0.1) && decide (s.point.violation < real 0.1)
      || decide (anchored.maxIterations < s.rounds)) = false
    rw [decide_eq_false hviolation, decide_eq_false hfew, Bool.and_false, Bool.or_false]
  · rw [hradius]
    exact not_lt_of_le (show real 1e-8 ≤ real 1.0 from real_le.mpr (by norm_num))

theorem isReal_start_anchored : s.point.IsReal :=
  TrustRegion.isReal_start realValued_anchoredLevel (interior_anchored 0.5).isReal
    (inSpace_pair 0 0).isReal hs

theorem exists_attempt_anchored : ∃ trial,
    TrustRegion.attempt (anchored.atLevel anchoredLevel) {} (stepBox anchored) s = .ok trial := by
  obtain ⟨hz, -⟩ := TrustRegion.start_eq_ok hs
  have hinterior : anchored.Interior s.point.iterate := hz ▸ interior_anchored 0.5
  exact (TrustRegion.ensures_attempt (shaped_anchored _) rfl
    (TrustRegion.shaped_start (shaped_anchored _) rfl rfl hs)).exists_ok_of_excluded
      (TrustRegion.Path.start.yields_attempt realValued_anchored ⟨_, parameter_anchored⟩
        TrustRegionOptions.sharesBounds_default (isReal_start_anchored hs) hinterior)

theorem exists_proposes_anchored (j : Journal Extended) :
    ∃ trial j', TrustRegion.Proposes (anchored.atLevel anchoredLevel) {} (stepBox anchored) s j
      trial j' ∧ trial.step = [real 0.5, real 0] := by
  obtain ⟨hz, hfresh, -⟩ := TrustRegion.start_eq_ok hs
  have hat := anchoredAt_of_fresh parameter_anchored hz hfresh
  have hradius := TrustRegion.radius_of_start hs
  obtain ⟨trial, proposed⟩ := exists_attempt_anchored hs
  obtain ⟨j', proposes⟩ := TrustRegion.exists_proposes (goesOn_anchored hs) proposed j
  obtain ⟨normal, tangential, hn, ht, hadd, -⟩ := TrustRegion.attempt_eq_ok proposed
  rw [hradius] at hn ht
  obtain rfl := Except.ok.inj (hn.symm.trans (normalStep_anchored hat))
  -- What is left of the step lies in the null space, which is trivial.
  have hzeros : tangential.1 = Vec.zeros 2 := Trial.tangentialStep_eq_zeros
    TrustRegionOptions.confining_default (admitsZero_stepBox anchored) (isReal_start_anchored hs)
    hfresh.projector (by norm_num) hn ht fun _ ↦ eq_zeros_of_inNullSpace hat.projector
  rw [hzeros] at hadd
  have hsum : Vec.add [real 0.5, real 0] (Vec.zeros 2) = .ok [real 0.5, real 0] := by
    change Except.ok [real (0.5 + 0), real (0 + 0)] = _
    rw [add_zero, add_zero]
  exact ⟨trial, j', proposes, Except.ok.inj (hadd.symm.trans hsum)⟩

theorem accepted_anchored
    (proposed : TrustRegion.attempt (anchored.atLevel anchoredLevel) {} (stepBox anchored) s =
      .ok trial)
    (hstep : trial.step = [real 0.5, real 0]) : trial.isAccepted {} = true := by
  have hratio : real 1e-8 ≤ real 1 := real_le.mpr (by norm_num)
  obtain ⟨hz, hfresh, -⟩ := TrustRegion.start_eq_ok hs
  obtain ⟨hpenalized, hpenalty⟩ := TrustRegion.penalized_start realValued_anchoredLevel
    (interior_anchored 0.5).isReal (inSpace_pair 0 0).isReal (isReal_real 1.0)
    (real_lt.mpr (by norm_num)) hs
  have hsecured := hpenalized.secured TrustRegionOptions.penalizing_default
    (admitsZero_stepBox anchored).admitReals proposed
  have hjudged := TrustRegion.judged_of_attempt proposed
  rw [hpenalty] at hjudged
  obtain ⟨-, hobjective, hresidual⟩ := evaluated_anchored parameter_anchored hz
    (TrustRegion.evaluated_of_attempt proposed) hstep
  have hhessian := hfresh.hessian
  rw [hz] at hhessian
  exact hsecured.isAccepted hratio
    (actual_anchored (anchoredAt_of_fresh parameter_anchored hz hfresh)
      (hessian_anchored parameter_anchored hhessian) hjudged hstep hobjective hresidual)

end FirstRound

/-- Where the slack is one and the linear equality holds, all conditions do. -/
theorem stop_anchored {s : TrustRegion.State Extended} {μ : ℝ} (hat : AnchoredAt s.point 1 μ) :
    anchored.stop anchoredLevel s.report = true := by
  have hsmall : (0 : Extended) < real 0.1 := real_lt.mpr (by norm_num)
  have hviolation : s.point.violation = 0 := by
    rw [hat.violation, sub_self, abs_zero]
    rfl
  change (decide (s.point.optimality < real 0.1) && decide (s.point.violation < real 0.1)
    || decide (anchored.maxIterations < s.rounds)) = true
  rw [hat.optimality, hviolation, decide_eq_true hsmall]
  rfl

theorem exists_solve_anchored : ∃ report journal,
    TrustRegion.solve (anchored.atLevel anchoredLevel) {} (stepBox anchored) [real 0.5, real 1]
      [real 0, real 0] (real 1.0) (real 1.0) 1002 = (.ok report, journal)
    ∧ report.iterations = 1 ∧ journal.iterate = [real 1, real 1] := by
  obtain ⟨s, hs⟩ := exists_start_anchored
  obtain ⟨hz, -, hrounds⟩ := TrustRegion.start_eq_ok hs
  obtain ⟨trial, j', proposes, hstep⟩ := exists_proposes_anchored hs ⟨[real 0.5, real 1], #[], #[]⟩
  have proposed := proposes.attempt.1
  have hevaluated := TrustRegion.evaluated_of_attempt proposed
  obtain ⟨hnext, -⟩ := evaluated_anchored parameter_anchored hz hevaluated hstep
  obtain ⟨point, hpoint⟩ := exists_complete_anchored ⟨_, parameter_anchored⟩ 1 none nofun
    trial.objective trial.residual
  rw [← hnext] at hpoint
  have hmoved : TrustRegion.moved (anchored.atLevel anchoredLevel) {} s trial =
      .ok ⟨point, trial.nextRadius {} s.radius, trial.penalty, s.rounds + 1⟩ := by
    rw [TrustRegion.moved, hpoint]
    rfl
  have arrives : TrustRegion.Arrives (anchored.atLevel anchoredLevel) {} (stepBox anchored)
      [real 0.5, real 1] [real 0, real 0] (real 1.0) (real 1.0) 1002 1002 s
      ⟨[real 0.5, real 1], #[], #[]⟩ := .start hs
  obtain ⟨j'', arrives'⟩ :=
    arrives.exists_accepted proposes (accepted_anchored hs proposed hstep) hmoved
  obtain ⟨hz', hfresh'⟩ :=
    Point.fresh_of_complete hevaluated.objective hevaluated.residual hpoint
  have hat := anchoredAt_of_fresh parameter_anchored (hz'.trans hnext) hfresh'
  obtain ⟨journal, hsolve, hiterate⟩ := arrives'.solve_of_stop rfl (stop_anchored hat)
  exact ⟨_, journal, hsolve, congrArg (· + 1) hrounds, hiterate.trans (hz'.trans hnext)⟩

/-- The first call for the anchored parabola makes one round, and its report is a certificate. -/
theorem anchored_is_certified :
    ∃ (c c' : TrustRegionContinuation Extended) (report : Report Extended),
    ofSetup anchoredSetup (InnerSolver.trustRegion {}) [] = .ok c ∧ c.step = (.ok report, c')
    ∧ report.iterations = 1 ∧ c'.point = [real 1] ∧ c'.slack = [real 1]
    ∧ ∃ μ ω η κ, 0 < μ ∧ c'.CertifiedBy report μ ω η ∧ c'.complementarity = real κ
      ∧ |κ - μ| ≤ ω := by
  obtain ⟨report, journal, hsolve, hrounds, hiterate⟩ := exists_solve_anchored
  have hsolved : (anchoredSetup.begun (InnerSolver.trustRegion {}) [] anchored [0, 0]).solved =
      (.ok report, journal) := hsolve
  have hstep := step_of_solved_ok (built_of_ofSetup ofSetup_anchored).solver
    (congrArg Prod.fst hsolved)
  rw [hsolved] at hstep
  have hparameter : 0 < anchoredSetup.options.initialParameter :=
    show real 0 < real 0.1 from real_lt.mpr (by norm_num)
  obtain ⟨μ, ω, η, hpos, hcertified, hnear⟩ := reports_are_certificates realValued_anchoredSetup
    shaped_anchoredSetup hparameter ofSetup_anchored (n := 0) hstep
  obtain ⟨κ, hκ, hle⟩ := hnear Nat.one_pos
  refine ⟨_, _, _, ofSetup_anchored, hstep, ?_, ?_, ?_, μ, ω, η, κ, hpos, hcertified, hκ, hle⟩
  · change 0 + report.iterations = 1
    rw [hrounds]
  · exact congrArg (List.take 1) hiterate
  · exact congrArg (List.drop 1) hiterate

end Anchored

end Continuation

end LogBarrier
