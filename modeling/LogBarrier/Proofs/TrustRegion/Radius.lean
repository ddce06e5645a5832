import LogBarrier.Proofs.Exact.ProjectionLaws
import LogBarrier.Proofs.Shape.Search
import LogBarrier.Proofs.TrustRegion.Endings
import LogBarrier.Proofs.TrustRegion.Reals

/-!
# Trial steps in the trust region

A trial step is not longer than the radius of its round.

The normal step is within its part of the radius, and the tangential step is given the length that
is left by the theorem of Pythagoras. This would be enough if the two parts were orthogonal. The
normal step is in the row space of the constraint matrix, and the iteration for the tangential step
stays in the null space. But its result may have been moved into the box, and then it is not in the
null space any more. The box is the one of the bounds, shifted by the normal step, so its entries
are moved towards those of the negative normal step. The sum of the two parts does not get longer by
that.
-/

namespace LogBarrier

open Extended

/-- Options with which steps are kept in the trust region, whatever the thresholds for the ratio and
the penalty are. -/
structure TrustRegionOptions.Confining (options : TrustRegionOptions Extended) : Prop where
  normalRadiusShare : ∃ σ : ℝ, options.normalRadiusShare = real σ ∧ 0 < σ ∧ σ ≤ 1
  normalBoundsShare : options.SharesBounds
  minRadius : 0 ≤ options.minRadius
  excellentGrowth : options.excellentGrowth.IsReal
  goodGrowth : options.goodGrowth.IsReal
  mildShrink : options.mildShrink.IsReal
  harshShrink : options.harshShrink.IsReal

theorem TrustRegionOptions.confining_default :
    ({} : TrustRegionOptions Extended).Confining where
  normalRadiusShare := ⟨_, rfl, by norm_num, by norm_num⟩
  normalBoundsShare := sharesBounds_default
  minRadius := by
    change (0 : ℝ) ≤ 1e-8
    norm_num
  excellentGrowth := isReal_real _
  goodGrowth := isReal_real _
  mildShrink := isReal_real _
  harshShrink := isReal_real _

namespace Vec

variable {x y lower upper : Vec Extended}

theorem sumSq_zipWith_add (hx : IsReal x) (hy : IsReal y) (h : x.length = y.length) :
    sumSq (List.zipWith (· + ·) x y) =
      ∑ i ∈ Finset.range x.length, (coord x i + coord y i) * (coord x i + coord y i) := by
  rw [sumSq, List.length_zipWith, ← h, Nat.min_self]
  exact Finset.sum_congr rfl fun i hi ↦ by
    rw [coord_zipWith_add hx hy h (Finset.mem_range.mp hi)]

theorem coord_neg (hx : IsReal x) {i : ℕ} (hi : i < x.length) : coord (neg x) i = -coord x i := by
  rw [← ofCoords_coord hx, neg_ofCoords, coord_ofCoords hi, coord_ofCoords hi]

/-- The bounds that are left after a first part admit the way back. -/
theorem fits_neg_of_admitZero (h : AdmitZero lower upper) (hx : IsReal x) :
    Fits (neg x) (List.zipWith (· - ·) lower x) (List.zipWith (· - ·) upper x) := by
  intro i b l u hb hl hu
  obtain ⟨l, a, hlower, ha, rfl⟩ := List.getElem?_zipWith_eq_some.mp hl
  obtain ⟨u, a', hupper, ha', rfl⟩ := List.getElem?_zipWith_eq_some.mp hu
  rw [ha] at ha'
  cases ha'
  rw [neg, List.getElem?_map, ha] at hb
  cases hb
  obtain ⟨r, rfl⟩ := hx a (List.mem_of_getElem? ha)
  constructor
  · rcases le_real_iff.mp (h.lower_le l (List.mem_of_getElem? hlower)) with rfl | ⟨s, hs, rfl⟩
    · exact negInf_le_real _
    · rw [real_sub]
      exact real_le.mpr (by linarith)
  · rcases real_le_iff.mp (h.le_upper u (List.mem_of_getElem? hupper)) with rfl | ⟨s, hs, rfl⟩
    · exact real_le_posInf _
    · rw [real_sub]
      exact real_le.mpr (by linarith)

/-- The sum of a vector and of a clipped one is not longer than the sum without the clipping, if the
way back from the vector is in the box. -/
theorem sumSq_add_clamp_le {clipped : Vec Extended} {n : ℕ} (hx : IsReal x) (hy : IsReal y)
    (hxn : x.length = n) (hyn : y.length = n) (hfits : Fits (neg x) lower upper)
    (h : clamp y lower upper = .ok clipped) :
    IsReal clipped ∧ clipped.length = n
      ∧ sumSq (List.zipWith (· + ·) x clipped) ≤ sumSq (List.zipWith (· + ·) x y) := by
  have hlength : y.length = (neg x).length := by rw [hyn, ← hxn]; exact (List.length_map _).symm
  obtain ⟨hreal, hclipped, hcloser⟩ := (yields_clamp_closer hy hx.neg hlength hfits).of_eq_ok h
  refine ⟨hreal, hclipped.trans hyn, ?_⟩
  rw [sumSq_zipWith_add hx hreal (by rw [hclipped, hxn, hyn]),
    sumSq_zipWith_add hx hy (by rw [hxn, hyn])]
  refine Finset.sum_le_sum fun i hi ↦ ?_
  have hi' : i < x.length := Finset.mem_range.mp hi
  have hle := hcloser i (by rwa [hyn, ← hxn])
  rw [coord_neg hx hi', sub_neg_eq_add, sub_neg_eq_add, add_comm, add_comm (coord y i)] at hle
  exact abs_le_iff_mul_self_le.mp hle

end Vec

/-! ## One step -/

namespace Trial

variable {options : TrustRegionOptions Extended} {bounds : StepBox Extended}
  {point : Point Extended} {normal tangential step : Vec Extended} {R : ℝ}

/-- The radius that is left is the other leg of a right triangle. -/
theorem remainingRadius_eq (hnormal : Vec.IsReal normal) (h : Vec.sumSq normal ≤ R ^ 2) :
    remainingRadius (real R) normal = real √(R ^ 2 - Vec.sumSq normal) := by
  have hleft : 0 ≤ R ^ 2 - Vec.sumSq normal := sub_nonneg.mpr h
  rw [remainingRadius, Vec.norm_eq hnormal, real_mul, real_mul,
    Real.mul_self_sqrt (Vec.sumSq_nonneg normal), ← sq, real_sub, zero_eq, maxNum_real,
    max_eq_left hleft, sqrt_real hleft]

/-- A normal step and what a tangential step in the remaining radius reaches add up to a step in the
ball. -/
theorem sumSq_add_le (model : TangentialStep.Model Extended)
    (hnormal : model.projector.InRowSpace normal) (hball : Vec.sumSq normal ≤ R ^ 2)
    (hreaches : model.Reaches √(R ^ 2 - Vec.sumSq normal) tangential)
    (hfits : Vec.Fits (Vec.neg normal) model.lower model.upper)
    (h : Vec.add normal tangential = .ok step) : Vec.IsReal step ∧ Vec.sumSq step ≤ R ^ 2 := by
  obtain ⟨y, ⟨hnull, hy⟩, hreached⟩ := hreaches
  rw [Real.sq_sqrt (sub_nonneg.mpr hball)] at hy
  have hpythagoras : Vec.sumSq (List.zipWith (· + ·) normal y) ≤ R ^ 2 := by
    rw [Vec.sumSq_zipWith_add hnormal.isReal hnull.isReal
      (hnormal.length_eq.trans hnull.length_eq.symm), hnormal.length_eq, hnormal.sum_sq_add hnull]
    linarith
  obtain ⟨-, rfl⟩ := Vec.combine_eq_ok_iff.mp h
  rcases hreached with rfl | hclamp
  · exact ⟨hnormal.isReal.zipWith hnull.isReal fun _ _ ha hb ↦ ha.add hb, hpythagoras⟩
  · obtain ⟨hreal, -, hle⟩ := Vec.sumSq_add_clamp_le hnormal.isReal hnull.isReal hnormal.length_eq
      hnull.length_eq hfits hclamp
    exact ⟨hnormal.isReal.zipWith hreal fun _ _ ha hb ↦ ha.add hb, hle.trans hpythagoras⟩

theorem yields_tangentialStep_null {radius : Extended} {ρ σ : ℝ} (hσ : σ ≤ 1)
    (hbounds : bounds.AdmitsZero) (hpoint : point.IsReal)
    (hprojector : Projector.ofMatrix point.jacobian = .ok point.projector)
    (hnormal : Vec.IsReal normal)
    (hfits : Vec.Fits normal (Vec.scale bounds.lower (real σ)) (Vec.scale bounds.upper (real σ)))
    (hρ : remainingRadius radius normal = real ρ) :
    Yields (fun t ↦ ∃ model, tangentialModel bounds point radius normal = .ok model
        ∧ model.IsReal ∧ model.Reaches ρ t.1)
      (tangentialStep bounds point radius normal) := by
  refine yields_tangentialStep_of hpoint hnormal fun model gradient hmodel hgradient ↦ ?_
  obtain ⟨-, hhessian, hprojector', hradius, hlower, hupper⟩ := tangentialModel_eq_ok hmodel
  have hm : model.IsReal := by
    refine ⟨hhessian ▸ hpoint.hessian, hprojector' ▸ hpoint.projector, ?_⟩
    rw [hlower, hupper]
    exact Vec.AdmitZero.shifted hσ hbounds bounds.length_eq hnormal hfits
  have hfactored := (Projector.belongsTo_of_ofMatrix hprojector).isFactored hpoint.jacobian
  rw [← hprojector'] at hfactored
  exact (TangentialStep.yields_compute_null hm hfactored (hradius.trans hρ) hgradient _).mono
    fun t ht ↦ ⟨model, hmodel, hm, ht⟩

section Parts

variable {n : Vec Extended × NormalKind} {t : Vec Extended × TangentialReport}
  (hoptions : options.Confining) (hbounds : bounds.AdmitsZero) (hpoint : point.IsReal)
  (hprojector : Projector.ofMatrix point.jacobian = .ok point.projector) (hR : 0 ≤ R)
  (hn : normalStep options bounds point (real R) = .ok n)
  (ht : tangentialStep bounds point (real R) n.1 = .ok t)

include hoptions hbounds hpoint hprojector hR hn ht

theorem exists_reaches : Vec.IsReal n.1 ∧ point.projector.InRowSpace n.1
    ∧ Vec.sumSq n.1 ≤ R ^ 2
    ∧ ∃ model, tangentialModel bounds point (real R) n.1 = .ok model ∧ model.IsReal
      ∧ model.Reaches √(R ^ 2 - Vec.sumSq n.1) t.1 := by
  have hfactored := (Projector.belongsTo_of_ofMatrix hprojector).isFactored hpoint.jacobian
  obtain ⟨σ, hσ, hpos, hle⟩ := hoptions.normalBoundsShare
  obtain ⟨share, hshare, hshare0, hshare1⟩ := hoptions.normalRadiusShare
  have hpart : 0 ≤ share * R := mul_nonneg hshare0.le hR
  obtain ⟨hreal, hfits⟩ :=
    (yields_normalStep hoptions.normalBoundsShare hbounds hpoint (real R)).of_eq_ok hn
  rw [normalStep, hshare, hσ, real_mul] at hn
  rw [hσ] at hfits
  obtain ⟨hrow, hnorm⟩ := (NormalStep.yields_compute_row hpoint.jacobian hfactored hpoint.residual
    (Vec.AdmitZero.share hpos hbounds) (real_le.mpr hpart)).of_eq_ok hn
  have hball : Vec.sumSq n.1 ≤ R ^ 2 := ((Vec.norm_le_iff hreal hpart).mp hnorm).trans
    (pow_le_pow_left₀ hpart (mul_le_of_le_one_left hR hshare1) 2)
  exact ⟨hreal, hrow, hball, (yields_tangentialStep_null hle hbounds hpoint hprojector
    hreal hfits (remainingRadius_eq hreal hball)).of_eq_ok ht⟩

theorem norm_step_le (hstep : Vec.add n.1 t.1 = .ok step) : Vec.norm step ≤ real R := by
  obtain ⟨hreal, hrow, hball, model, hmodel, -, hreaches⟩ :=
    exists_reaches hoptions hbounds hpoint hprojector hR hn ht
  obtain ⟨-, -, hprojector', -, hlower, hupper⟩ := tangentialModel_eq_ok hmodel
  have hback : Vec.Fits (Vec.neg n.1) model.lower model.upper := by
    rw [hlower, hupper]
    exact Vec.fits_neg_of_admitZero hbounds hreal
  obtain ⟨hstepReal, hstepBall⟩ :=
    sumSq_add_le model (hprojector' ▸ hrow) hball hreaches hback hstep
  exact (Vec.norm_le_iff hstepReal hR).mpr hstepBall

/-- Where the null space is trivial, nothing is left to the tangential step. -/
theorem tangentialStep_eq_zeros {m : ℕ}
    (htrivial : ∀ x, point.projector.InNullSpace x → x = Vec.zeros m) : t.1 = Vec.zeros m := by
  obtain ⟨-, -, -, model, hmodel, hm, x, ⟨hnull, -⟩, hreached⟩ :=
    exists_reaches hoptions hbounds hpoint hprojector hR hn ht
  obtain ⟨-, -, hprojector', -⟩ := tangentialModel_eq_ok hmodel
  obtain rfl := htrivial x (hprojector' ▸ hnull)
  obtain hsame | hclamp := hreached
  · exact hsame
  · exact Vec.eq_of_clamp (Vec.fits_zeros hm.admitZero m) hclamp

end Parts

/-! ## The next radius -/

theorem isReal_reducedRadius {radius ratio length : Extended} (hoptions : options.Confining)
    (hradius : radius.IsReal) : (reducedRadius options radius ratio length).IsReal := by
  obtain ⟨mild, hmild⟩ := hoptions.mildShrink.mul hradius
  obtain ⟨harsh, hharsh⟩ := hoptions.harshShrink.mul hradius
  rw [reducedRadius]
  split
  · exact hradius.mul hoptions.mildShrink
  next hnot =>
    split
    next hle =>
      -- Only infinity is beyond all reductions, and it would have been reduced mildly.
      rw [hmild] at hnot
      rw [hharsh] at hle
      rcases real_le_iff.mp hle with hinf | ⟨y, -, hy⟩
      · rw [hinf] at hnot
        exact absurd (real_le_posInf mild) hnot
      · rw [hy]
        exact isReal_real y
    · exact hradius.mul hoptions.harshShrink

theorem isReal_nextRadius {radius : Extended} {trial : Trial Extended}
    (hoptions : options.Confining) (hradius : radius.IsReal) (hlength : trial.length.IsReal) :
    (trial.nextRadius options radius).IsReal := by
  rw [nextRadius]
  split
  · exact hradius.maxNum (hoptions.excellentGrowth.mul hlength)
  split
  · exact hradius.maxNum (hoptions.goodGrowth.mul hlength)
  split
  · exact isReal_reducedRadius hoptions hradius
  · exact hradius

end Trial

/-! ## Whole searches -/

namespace TrustRegion

section Rounds

variable {α : Type} [Scalar α] {problem : InnerProblem α} {options : TrustRegionOptions α}
  {bounds : StepBox α} {s s' : State α} {trial : Trial α}

theorem radius_of_moved (h : moved problem options s trial = .ok s') :
    s'.radius = trial.nextRadius options s.radius := by
  obtain ⟨point, -, h⟩ := bind_eq_ok_iff.mp h
  cases h
  rfl

theorem length_of_attempt (h : attempt problem options bounds s = .ok trial) :
    trial.length = Vec.norm trial.step := (judged_of_attempt h).length

end Rounds

variable {problem : InnerProblem Extended} {options : TrustRegionOptions Extended}
  {bounds : StepBox Extended} {z v : Vec Extended} {radius penalty : Extended}
  {s s₀ : State Extended} {trials : List (Trial Extended)}

theorem Path.isReal_radius (hproblem : problem.RealValued) (hoptions : options.Confining)
    (hbounds : bounds.AdmitsZero) (h₀ : s₀.point.IsReal) (hradius : s₀.radius.IsReal)
    (path : Path problem options bounds s₀ trials s) : s.radius.IsReal := by
  have hlength : ∀ {trials s trial}, Path problem options bounds s₀ trials s →
      attempt problem options bounds s = .ok trial → trial.length.IsReal := by
    intro trials s trial path proposed
    rw [length_of_attempt proposed]
    exact (path.contains_step hproblem hoptions.normalBoundsShare hbounds h₀ proposed).1.norm
  induction path with
  | start => exact hradius
  | accepted path _ proposed _ arrived ih =>
    rw [radius_of_moved arrived]
    exact Trial.isReal_nextRadius hoptions ih (hlength path proposed)
  | rejected path _ proposed _ ih =>
    exact Trial.isReal_nextRadius hoptions ih (hlength path proposed)

/-- **The trust region.** In every round of a solve, the sum of the normal and of the tangential
step is not longer than the radius at the start of the round. The step that the round proposes is
such a sum. -/
theorem step_within_radius (hproblem : problem.RealValued) (hoptions : options.Confining)
    (hbounds : bounds.AdmitsZero) (hz : Vec.IsReal z) (hv : Vec.IsReal v) (hradius : radius.IsReal)
    {limit left : ℕ} {j : Journal Extended}
    (arrives : Arrives problem options bounds z v radius penalty limit (left + 1) s j)
    (going : GoesOn problem options s) :
    (bounds.dim = problem.dim → solve problem options bounds z v radius penalty limit =
      (propose problem options bounds s >>= fun trial ↦
        settle problem options s trial >>= search problem options bounds left).run
          (noted problem s j))
    ∧ (∀ normal tangential step, Trial.normalStep options bounds s.point s.radius = .ok normal →
      Trial.tangentialStep bounds s.point s.radius normal.1 = .ok tangential →
      Vec.add normal.1 tangential.1 = .ok step → Vec.norm step ≤ s.radius)
    ∧ ∀ trial j', (propose problem options bounds s).run (noted problem s j) = (.ok trial, j') →
      (∃ normal tangential, Trial.normalStep options bounds s.point s.radius = .ok normal
        ∧ Trial.tangentialStep bounds s.point s.radius normal.1 = .ok tangential
        ∧ Vec.add normal.1 tangential.1 = .ok trial.step)
      ∧ trial.length = Vec.norm trial.step ∧ trial.length ≤ s.radius := by
  obtain ⟨s₀, trials, hs₀, path, -⟩ := arrives.exists_path
  have h₀ := isReal_start hproblem hz hv hs₀
  have hpoint := path.isReal hproblem hoptions.normalBoundsShare hbounds h₀
  have hprojector := (path.fresh (start_eq_ok hs₀).2.1).projector
  obtain ⟨R, hR⟩ := path.isReal_radius hproblem hoptions hbounds h₀
    ((radius_of_start hs₀).symm ▸ hradius)
  -- A search does not go on with a radius below a bound that is not negative.
  have hR0 : 0 ≤ R := by
    by_contra hneg
    refine going.2 (lt_of_lt_of_le (b := 0) ?_ hoptions.minRadius)
    rw [hR]
    exact real_lt.mpr (not_le.mp hneg)
  have hstep : ∀ normal tangential step,
      Trial.normalStep options bounds s.point s.radius = .ok normal →
      Trial.tangentialStep bounds s.point s.radius normal.1 = .ok tangential →
      Vec.add normal.1 tangential.1 = .ok step → Vec.norm step ≤ s.radius := by
    rw [hR]
    exact fun _ _ _ hn ht hadd ↦
      Trial.norm_step_le hoptions hbounds hpoint hprojector hR0 hn ht hadd
  refine ⟨fun hdim ↦ ?_, hstep, fun trial j' hpropose ↦ ?_⟩
  · rw [arrives.solve_eq hdim, search_run_of_goesOn going]
  · have proposed := attempt_eq_of_propose (congrArg Prod.fst hpropose)
    obtain ⟨normal, tangential, hn, ht, hadd, -⟩ := attempt_eq_ok proposed
    refine ⟨⟨normal, tangential, hn, ht, hadd⟩, length_of_attempt proposed, ?_⟩
    rw [length_of_attempt proposed]
    exact hstep normal tangential trial.step hn ht hadd

/-! ## A ledge -/

noncomputable def ledgeRow : DenseMatrix Extended := DenseMatrix.ofRows 2 [[real 1, real 0]]

/-- The way to a ledge, where the first variable is zero, and to the middle of it. -/
noncomputable def ledge : InnerProblem Extended where
  dim := 2
  constraintCount := 1
  objective z := do
    let x ← Vec.entry z 0
    let y ← Vec.entry z 1
    return y * y - (x + x)
  gradient z := do
    let y ← Vec.entry z 1
    return [-(1 + 1), y + y]
  constraints z := do
    let x ← Vec.entry z 0
    return [x]
  jacobian _ := .ok (.dense ledgeRow)
  hessian _ _ := .ok (.diagonal [0, 1 + 1])
  scaling _ := .ok (.identity 2)
  stop report := report.violation == 0

noncomputable def ledgeBounds : StepBox Extended :=
  ⟨[real (-(1 + 1)), real (-(1 + 1))], [real (1 + 1), real (1 + 1)], rfl⟩

theorem isReal_ledgeRow : ledgeRow.IsReal := DenseMatrix.isReal_ofRows (by simp [Vec.isReal_cons])

theorem realValued_ledge : ledge.RealValued where
  gradient := by
    intro z g hz h
    obtain ⟨y, hy, h⟩ := bind_eq_ok_iff.mp h
    cases h
    obtain ⟨r, rfl⟩ := (Vec.yields_entry hz 1).of_eq_ok hy
    exact Vec.isReal_cons.mpr ⟨isReal_real _, Vec.isReal_cons.mpr ⟨isReal_real _, Vec.isReal_nil⟩⟩
  constraints := by
    intro z c hz h
    obtain ⟨x, hx, h⟩ := bind_eq_ok_iff.mp h
    cases h
    exact Vec.isReal_cons.mpr ⟨(Vec.yields_entry hz 0).of_eq_ok hx, Vec.isReal_nil⟩
  jacobian := by
    rintro z op - ⟨⟩
    exact .dense isReal_ledgeRow
  hessian := by
    rintro z v op - - ⟨⟩
    exact .diagonal (Vec.isReal_cons.mpr
      ⟨isReal_zero, Vec.isReal_cons.mpr ⟨isReal_real _, Vec.isReal_nil⟩⟩)
  scaling := by
    rintro z op - ⟨⟩
    exact .diagonal (Vec.IsReal.replicate isReal_one 2)

theorem shaped_ledge : ledge.Shaped fun _ ↦ False where
  pivots := .inl Projector.detectsZero
  objective z hz := by
    have hlength : z.length = 2 := hz
    exact (Vec.ensures_entry (by omega)).bind fun _ _ ↦
      (Vec.ensures_entry (by omega)).bind fun _ _ ↦ Ensures.pure trivial
  gradient z hz := by
    have hlength : z.length = 2 := hz
    exact (Vec.ensures_entry (by omega)).bind fun _ _ ↦ Ensures.pure rfl
  constraints z hz := by
    have hlength : z.length = 2 := hz
    exact (Vec.ensures_entry (by omega)).bind fun _ _ ↦ Ensures.pure rfl
  jacobian _ _ := Ensures.ok ⟨.dense _, rfl, rfl⟩
  hessian _ _ _ _ := Ensures.ok ⟨.diagonal _, rfl, rfl⟩
  scaling _ _ := Ensures.ok ⟨.diagonal _, rfl, rfl⟩

theorem admitsZero_ledge : ledgeBounds.AdmitsZero := by
  simp only [StepBox.AdmitsZero, ledgeBounds, Vec.admitZero_cons, zero_eq, real_le]
  exact ⟨by norm_num, by norm_num, Vec.admitZero_nil⟩

theorem exists_projector_ledge : ∃ p, Projector.ofMatrix ledgeRow = .ok p := by
  obtain ⟨p, hp, -⟩ := Projector.ofMatrix_of_row (a := ledgeRow) (r := [1, 0]) rfl rfl
    (by norm_num) (by change ((2 : ℕ) : ℝ) < _; norm_num)
  exact ⟨p, hp⟩

variable {p : Projector Extended}

theorem isExact_ledge (hp : Projector.ofMatrix ledgeRow = .ok p) : p.IsExact ledgeRow :=
  (Projector.belongsTo_of_ofMatrix hp).isExact isReal_ledgeRow

/-- The second coordinate of a vector is tangent, and the first one is the combination of rows. -/
theorem split_ledge (hp : Projector.ofMatrix ledgeRow = .ok p) (x y : ℝ) :
    p.toNullSpace [real x, real y] = .ok [real 0, real y]
      ∧ p.coefficients [real x, real y] = .ok [real x]
      ∧ p.minNormSolution [real x] = .ok [real x, real 0] := by
  have hw : Vec.InSpace ledgeRow.rows [real x] := ⟨by simp [Vec.isReal_cons], rfl⟩
  have hu : ledgeRow.trMulVec [real x] = .ok [real x, real 0] := by
    change Except.ok [real (0 + 1 * x), real (0 + 0 * x)] = _
    simp
  have hy : Vec.InSpace ledgeRow.cols [real 0, real y] := ⟨by simp [Vec.isReal_cons], rfl⟩
  have hzero : ledgeRow.mulVec [real 0, real y] = .ok (Vec.zeros ledgeRow.rows) := by
    change Except.ok [real (1 * 0 + 0 * y)] = .ok [real 0]
    simp
  have hsum : Vec.add [real 0, real y] [real x, real 0] = .ok [real x, real y] := by
    change Except.ok [real (0 + x), real (y + 0)] = _
    simp
  have hb : ledgeRow.mulVec [real x, real 0] = .ok [real x] := by
    change Except.ok [real (1 * x + 0 * 0)] = _
    simp
  obtain ⟨hnull, hcoefficients⟩ := (isExact_ledge hp).split_eq hw hu hy hzero hsum
  exact ⟨hnull, hcoefficients, (isExact_ledge hp).minNormSolution_eq hw hu hb⟩

/-! ### The first point -/

/-- What is known of the ledge at an iterate. -/
noncomputable def ledgePoint (p : Projector Extended) (x y : ℝ) : Point Extended where
  iterate := [real x, real y]
  objective := real (y * y - (x + x))
  residual := [real x]
  gradient := [real (-(1 + 1)), real (y + y)]
  jacobian := ledgeRow
  projector := p
  multipliers := [real (1 + 1)]
  hessian := .diagonal [0, 1 + 1]
  optimality := real |y + y|
  violation := real |x|

noncomputable def ledgeStart (p : Projector Extended) (radius : ℝ) : State Extended where
  point := ledgePoint p 1 1
  radius := real radius
  penalty := real 1
  rounds := 0

theorem complete_ledge (hp : Projector.ofMatrix ledgeRow = .ok p) (x y : ℝ)
    (given : Option (Vec Extended)) :
    Point.complete ledge [real x, real y] (real (y * y - (x + x))) [real x] given =
      .ok (ledgePoint p x y) := by
  have hgradient : ledge.gradient [real x, real y] = .ok [real (-(1 + 1)), real (y + y)] := rfl
  have hjacobian : ledge.jacobian [real x, real y] = .ok (.dense ledgeRow) := rfl
  have hdense : (Operator.dense ledgeRow).toMatrix = ledgeRow := rfl
  have hmultipliers : Vec.neg [real (-(1 + 1))] = [real (1 + 1)] := by
    change [real (- -(1 + 1))] = _
    rw [neg_neg]
  have hhessian : ledge.hessian [real x, real y] (given.getD [real (1 + 1)]) =
    .ok (.diagonal [0, 1 + 1]) := rfl
  have hrows : ledgeRow.trMulVec [real (1 + 1)] = .ok [real (1 + 1), real 0] := by
    change Except.ok [real (0 + 1 * (1 + 1)), real (0 + 0 * (1 + 1))] = _
    simp
  have hsum : Vec.add [real (-(1 + 1)), real (y + y)] [real (1 + 1), real 0] =
      .ok [real 0, real (y + y)] := by
    change Except.ok [real (-(1 + 1) + (1 + 1)), real (y + y + 0)] = _
    simp
  have hoptimality : Vec.maxNorm [real 0, real (y + y)] = real |y + y| := by
    change real (max (max 0 |0|) |y + y|) = _
    simp
  have hviolation : Vec.maxNorm [real x] = real |x| := by
    change real (max 0 |x|) = _
    simp
  rw [Point.complete_eq, hgradient, hjacobian]
  simp only [Failure.ofFault, ok_bind]
  rw [hdense, hp]
  dsimp only
  rw [Point.finish, (split_ledge hp (-(1 + 1)) (y + y)).2.1, ok_bind, hmultipliers]
  dsimp only
  rw [hhessian, ok_bind, hrows, ok_bind, hsum, ok_bind, hoptimality, hviolation]
  rfl

theorem start_ledge (hp : Projector.ofMatrix ledgeRow = .ok p) :
    start ledge [real 1, real 1] [real 0] (real 2) (real 1) = .ok (ledgeStart p 2) := by
  rw [start, Point.evaluate]
  change (Point.complete ledge [real 1, real 1] (real (1 * 1 - (1 + 1))) [real 1]
    (some [real 0]) >>= _) = _
  rw [complete_ledge hp]
  rfl

theorem goesOn_ledge (p : Projector Extended) : GoesOn ledge {} (ledgeStart p 2) := by
  refine ⟨eq_false_of_ne_true fun hstop ↦ ?_, fun hradius ↦ ?_⟩
  · have hzero : |(1 : ℝ)| = 0 := real_beq.mp hstop
    norm_num at hzero
  · have hlt : (2 : ℝ) < 1e-8 := hradius
    norm_num at hlt

/-! ### The two parts of the first step -/

theorem normalStep_ledge (hp : Projector.ofMatrix ledgeRow = .ok p) :
    Trial.normalStep {} ledgeBounds (ledgePoint p 1 1) (real 2) =
      .ok ([real (-1), real 0], .newton) := by
  have hnewton : Vec.neg [real 1, real 0] = [real (-1), real 0] := by
    change [real (-1), real (-0)] = _
    rw [neg_zero]
  have hbox : Vec.inBox [real (-1), real 0] [real (-(1 + 1) * 0.5), real (-(1 + 1) * 0.5)]
      [real ((1 + 1) * 0.5), real ((1 + 1) * 0.5)] = true := by
    norm_num [Vec.inBox]
  have hball : Vec.norm [real (-1), real 0] ≤ real (0.8 * 2) := by
    rw [Vec.norm_pair, real_le, Real.sqrt_le_iff]
    norm_num
  rw [Trial.normalStep, NormalStep.compute]
  change (p.minNormSolution [real 1] >>= _) = _
  rw [(split_ledge hp 1 0).2.2, ok_bind, hnewton]
  exact if_pos ⟨hbox, hball⟩

noncomputable def ledgeModel (p : Projector Extended) (radius : ℝ) :
    TangentialStep.Model Extended where
  hessian := .diagonal [0, 1 + 1]
  projector := p
  radius := real radius
  lower := [real (-(1 + 1) - -1), real (-(1 + 1) - 0)]
  upper := [real (1 + 1 - -1), real (1 + 1 - 0)]

/-- The state before the only round along the ledge. -/
noncomputable def ledgeState : TangentialStep.State Extended where
  x := [real 0, real 0]
  inside := [real 0, real 0]
  gradient := [real 0, real (1 + 1)]
  direction := [real 0, real (-(1 + 1))]
  image := [real 0, real (-(1 + 1) + -(1 + 1))]
  gradientSq := real ((1 + 1) * (1 + 1))
  rounds := 0
  outside := 0

theorem tangentialModel_ledge (p : Projector Extended) :
    Trial.tangentialModel ledgeBounds (ledgePoint p 1 1) (real 2) [real (-1), real 0] =
      .ok (ledgeModel p √3) := by
  have hreal : Vec.IsReal [real (-1), real 0] := by simp [Vec.isReal_cons]
  have hsum : Vec.sumSq [real (-1), real 0] = 1 := by
    norm_num [Vec.sumSq, Finset.sum_range_succ, Vec.coord]
  have hradius : Trial.remainingRadius (real 2) [real (-1), real 0] = real √3 := by
    rw [Trial.remainingRadius_eq hreal (by rw [hsum]; norm_num), hsum]
    norm_num
  rw [Trial.tangentialModel, hradius]
  rfl

theorem apply_ledge (p : Projector Extended) (radius x y : ℝ) :
    (ledgeModel p radius).hessian.apply [real x, real y] = .ok [real 0, real (y + y)] := by
  change Except.ok [real (x * 0), real (y * (1 + 1))] = _
  rw [mul_zero, mul_add, mul_one]

theorem begins_ledge (hp : Projector.ofMatrix ledgeRow = .ok p) :
    TangentialStep.Begins (ledgeModel p √3) [real (-(1 + 1)), real (1 + 1)] [real 0]
      ledgeState := by
  have hcount : p.variableCount = 2 := (isExact_ledge hp).regular.variableCount
  have hx : Vec.neg [real 0, real 0] = [real 0, real 0] := by
    change [real (-0), real (-0)] = _
    rw [neg_zero]
  have hsum : Vec.add [real 0, real (0 + 0)] [real (-(1 + 1)), real (1 + 1)] =
      .ok [real (-(1 + 1)), real (1 + 1)] := by
    change Except.ok [real (0 + -(1 + 1)), real (0 + 0 + (1 + 1))] = _
    simp
  have hneg : Vec.neg [real 0, real (1 + 1)] = [real 0, real (-(1 + 1))] := by
    change [real (-0), real (-(1 + 1))] = _
    rw [neg_zero]
  have hnormSq : Vec.normSq [real 0, real (1 + 1)] = real ((1 + 1) * (1 + 1)) := by
    change real (0 + 0 * 0 + (1 + 1) * (1 + 1)) = _
    simp
  constructor
  · rw [TangentialStep.start]
    change (p.minNormSolution [real 0] >>= _) = _
    rw [(split_ledge hp 0 0).2.2, ok_bind, hx]
    dsimp only
    rw [apply_ledge, ok_bind, hsum, ok_bind]
    change (p.toNullSpace [real (-(1 + 1)), real (1 + 1)] >>= _) = _
    rw [(split_ledge hp (-(1 + 1)) (1 + 1)).1, ok_bind]
    change (p.toNullSpace [real 0, real (1 + 1)] >>= _) = _
    rw [(split_ledge hp 0 (1 + 1)).1, ok_bind, hneg, apply_ledge, ok_bind, hnormSq]
    change Except.ok { ledgeState with inside := Vec.zeros p.variableCount } = _
    rw [hcount]
    rfl
  · have hone : (1 : ℝ) ≤ √3 := Real.le_sqrt_of_sq_le (by norm_num)
    rw [ledgeState, Vec.norm_pair, ledgeModel, real_sub, TangentialStep.negligible,
      ofScientific_eq, real_lt, not_lt, mul_zero, add_zero, Real.sqrt_zero, sub_zero]
    exact le_trans (by norm_num) hone

theorem fullStep_ledge {τ : ℝ} (hτ : τ ≤ 4) :
    TangentialStep.FullStep (real τ) ledgeState (real 8) [real 0, real (-1)] where
  large := fun h ↦ absurd (real_lt.mp h) (not_lt.mpr (hτ.trans (by norm_num)))
  curvature := by
    change Except.ok (real (0 + 0 * 0 + (-(1 + 1) + -(1 + 1)) * -(1 + 1))) = _
    norm_num
  positive := by
    rw [zero_eq, real_le]
    norm_num
  reaches := by
    rw [ledgeState, real_div (by norm_num)]
    change Except.ok [real (0 + 0 * _), real (0 + -(1 + 1) * _)] = _
    norm_num

theorem tangentialStep_ledge (hp : Projector.ofMatrix ledgeRow = .ok p) :
    Trial.tangentialStep ledgeBounds (ledgePoint p 1 1) (real 2) [real (-1), real 0] =
      .ok ([real 0, real (-1)], ⟨1, .exhausted, false⟩) := by
  have hregular := (isExact_ledge hp).regular
  have hmodel : (ledgeModel p √3).Shaped (fun _ ↦ False) 1 2 :=
    ⟨⟨.diagonal _, rfl, rfl⟩, hregular, rfl, rfl⟩
  have hlimit : (ledgeModel p √3).roundLimit = 1 := by
    change p.variableCount - p.constraintCount = 1
    rw [hregular.variableCount, hregular.constraintCount]
    rfl
  have hball : ¬(ledgeModel p √3).radius ≤ Vec.norm [real 0, real (-1)] := by
    rw [Vec.norm_pair, ledgeModel, real_le, not_le]
    exact Real.sqrt_lt_sqrt (by norm_num) (by norm_num)
  have hbox : Vec.inBox [real 0, real (-1)] (ledgeModel p √3).lower (ledgeModel p √3).upper =
      true := by
    norm_num [Vec.inBox, ledgeModel]
  have himage : (ledgePoint p 1 1).hessian.apply [real (-1), real 0] =
      .ok [real 0, real (0 + 0)] := apply_ledge p 0 _ _
  have hgradient : Vec.add [real 0, real (0 + 0)] (ledgePoint p 1 1).gradient =
      .ok [real (-(1 + 1)), real (1 + 1)] := by
    change Except.ok [real (0 + -(1 + 1)), real (0 + 0 + (1 + 1))] = _
    simp
  obtain ⟨τ, hτ, hle⟩ := TangentialStep.exists_tolerance_le
    (show 1e-25 ≤ ((1 + 1) * (1 + 1) : ℝ) by norm_num)
  have hstep : TangentialStep.FullStep (TangentialStep.tolerance ledgeState.gradientSq) ledgeState
      (real 8) [real 0, real (-1)] := by
    rw [ledgeState, hτ]
    exact fullStep_ledge (hle.trans (by norm_num))
  rw [Trial.tangentialStep, himage, ok_bind, hgradient, ok_bind, tangentialModel_ledge, ok_bind]
  exact TangentialStep.compute_of_fullStep hmodel rfl rfl (begins_ledge hp) hlimit hstep hball hbox

theorem exists_proposes_ledge (hp : Projector.ofMatrix ledgeRow = .ok p) (j : Journal Extended) :
    ∃ trial j', Proposes ledge {} ledgeBounds (ledgeStart p 2) j trial j'
      ∧ trial.step = [real (-1), real (-1)] := by
  have hshaped : (ledgeStart p 2).point.Shaped (fun _ ↦ False) 1 2 :=
    shaped_start shaped_ledge rfl rfl (start_ledge hp)
  have hattempt : Ensures (fun _ ↦ False) (fun trial ↦ trial.next.length = 2)
      (attempt ledge {} ledgeBounds (ledgeStart p 2)) := ensures_attempt shaped_ledge rfl hshaped
  obtain ⟨trial, hattempt, -⟩ := hattempt.exists_ok
  obtain ⟨j', proposed⟩ := exists_proposes (goesOn_ledge p) hattempt j
  obtain ⟨normal, tangential, hn, ht, hadd, -⟩ := attempt_eq_ok hattempt
  obtain rfl := Except.ok.inj (hn.symm.trans (normalStep_ledge hp))
  obtain rfl := Except.ok.inj (ht.symm.trans (tangentialStep_ledge hp))
  have hsum : Vec.add [real (-1), real 0] [real 0, real (-1)] = .ok [real (-1), real (-1)] := by
    change Except.ok [real (-1 + 0), real (0 + -1)] = _
    rw [add_zero, zero_add]
  exact ⟨trial, j', proposed, Except.ok.inj (hadd.symm.trans hsum)⟩

/-- On the way to the ledge, the first step has both parts, and it is within the radius. -/
theorem ledge_step_within_radius :
    ∃ s j trial j', Arrives ledge {} ledgeBounds [real 1, real 1] [real 0] (real 2) (real 1) 2 2 s j
      ∧ solve ledge {} ledgeBounds [real 1, real 1] [real 0] (real 2) (real 1) 2 =
        (settle ledge {} s trial >>= search ledge {} ledgeBounds 1).run j'
      ∧ Trial.normalStep {} ledgeBounds s.point s.radius = .ok ([real (-1), real 0], .newton)
      ∧ Trial.tangentialStep ledgeBounds s.point s.radius [real (-1), real 0] =
        .ok ([real 0, real (-1)], ⟨1, .exhausted, false⟩)
      ∧ trial.step = [real (-1), real (-1)] ∧ trial.length ≤ s.radius := by
  obtain ⟨p, hp⟩ := exists_projector_ledge
  have arrives : Arrives ledge {} ledgeBounds [real 1, real 1] [real 0] (real 2) (real 1) 2 2
      (ledgeStart p 2) ⟨[real 1, real 1], #[], #[]⟩ := .start (start_ledge hp)
  obtain ⟨trial, j', proposed, hstep⟩ := exists_proposes_ledge hp ⟨[real 1, real 1], #[], #[]⟩
  obtain ⟨hsolve, -, hwithin⟩ := step_within_radius realValued_ledge
    TrustRegionOptions.confining_default admitsZero_ledge (by simp [Vec.isReal_cons])
    (by simp [Vec.isReal_cons]) (isReal_real 2) arrives (goesOn_ledge p)
  refine ⟨_, _, trial, j', arrives, ?_, normalStep_ledge hp, tangentialStep_ledge hp, hstep,
    (hwithin trial j' proposed.run).2.2⟩
  rw [hsolve rfl, Run.run_bind, proposed.run]

end TrustRegion

end LogBarrier
