import LogBarrier.Proofs.TrustRegion.Consulted
import LogBarrier.Proofs.TrustRegion.Radius
import LogBarrier.Proofs.TrustRegion.RealSteps

/-!
# Merit and penalty

A trial is judged by a merit function whose penalty may have been raised for it. Three things keep
the judgement meaningful.

* The predicted reduction of the constraints is at least a positive constant, so the penalty has
  something to work with even at feasible points.
* The penalty is raised exactly as far as the predicted reduction needs it, so the reduction is at
  least a share `σ` of what is predicted for the constraints, whatever the sign of the model is.
* The predicted reduction is therefore positive, and a ratio that suffices means that the merit at
  this penalty has become smaller.

A rejected trial gives its penalty back. An accepted one keeps it, so that penalties never fall from
one round to the next, although merits at different penalties are not comparable.

Bounds and radius need not make sense: the steps consist of real numbers in any case.
-/

namespace LogBarrier

open Extended

namespace Extended

theorem exists_of_lt_of_lt {a : Extended} {x y : ℝ} (hx : real x < a) (hy : a < real y) :
    ∃ t, a = real t ∧ x < t ∧ t < y := by
  cases a with
  | real t => exact ⟨t, rfl, hx, hy⟩
  | _ => first | exact hx.elim | exact hy.elim

theorem exists_of_lt_of_le {a : Extended} {x y : ℝ} (hx : real x < a) (hy : a ≤ real y) :
    ∃ t, a = real t ∧ x < t ∧ t ≤ y := by
  cases a with
  | real t => exact ⟨t, rfl, hx, hy⟩
  | _ => first | exact hx.elim | exact hy.elim

end Extended

/-- The options with which a trial is judged sensibly. -/
structure TrustRegionOptions.Penalizing (options : TrustRegionOptions Extended) : Prop where
  share_pos : 0 < options.penaltyShare
  share_lt_one : options.penaltyShare < 1
  ratio_pos : 0 < options.acceptableRatio

theorem TrustRegionOptions.penalizing_default :
    TrustRegionOptions.Penalizing ({} : TrustRegionOptions Extended) where
  share_pos := real_lt.mpr (by norm_num)
  share_lt_one := real_lt.mpr (by norm_num)
  ratio_pos := real_lt.mpr (by norm_num)

/-! ## One trial -/

namespace Trial

variable {options : TrustRegionOptions Extended} {point : Point Extended} {penalty : Extended}
  {trial : Trial Extended}

theorem exists_raisedPenalty {σ ρ m g : ℝ} (hshare : options.penaltyShare = real σ) (hσ : σ < 1)
    (hρ : 0 < ρ) (hg : 0 < g) :
    ∃ ρ', raisedPenalty options (real ρ) (real m) (real g) = real ρ' ∧ ρ ≤ ρ'
      ∧ σ * ρ' * g ≤ -m + ρ' * g := by
  rw [raisedPenalty, hshare]
  by_cases hm : 0 < m
  · -- The penalty balances the model with the part of the gain that is not the share.
    have hrest : 0 < (1 - σ) * g := mul_pos (sub_pos.mpr hσ) hg
    refine ⟨max ρ (m / ((1 - σ) * g)), ?_, le_max_left _ _, ?_⟩
    · rw [zero_eq, if_pos (real_lt.mpr hm), one_eq, real_sub, real_mul, real_div hrest.ne',
        maxNum_real]
    · have hbalance : m ≤ max ρ (m / ((1 - σ) * g)) * ((1 - σ) * g) :=
        (div_le_iff₀ hrest).mp (le_max_right _ _)
      linarith
  · -- The model alone predicts a reduction, and the whole of the gain is left.
    refine ⟨ρ, if_neg fun h ↦ hm (real_lt.mp h), le_rfl, ?_⟩
    have hgain : σ * (ρ * g) ≤ ρ * g := mul_le_of_le_one_left (mul_pos hρ hg).le hσ.le
    linarith

/-- The penalty of the trial is at least the one at the start of its round, and what is predicted is
positive and at least the share of the predicted gain. -/
structure Secured (options : TrustRegionOptions Extended) (penalty : Extended)
    (trial : Trial Extended) : Prop where
  isReal_penalty : trial.penalty.IsReal
  isReal_predicted : trial.predicted.IsReal
  penalty_le : penalty ≤ trial.penalty
  share_le : options.penaltyShare * trial.penalty * trial.feasibilityGain ≤ trial.predicted
  share_pos : 0 < options.penaltyShare * trial.penalty * trial.feasibilityGain

theorem Judged.isReal_model (hpoint : point.IsReal) (hstep : Vec.IsReal trial.step)
    (h : trial.Judged options point penalty) : trial.model.IsReal := by
  obtain ⟨image, curvature, slope, himage, hcurvature, hslope, hmodel⟩ := h.model
  have hreal := (Operator.yields_apply hpoint.hessian hstep).of_eq_ok himage
  rw [hmodel]
  exact ((isReal_ofScientific _ _ _).mul ((Vec.yields_dot hreal hstep).of_eq_ok hcurvature)).add
    ((Vec.yields_dot hpoint.gradient hstep).of_eq_ok hslope)

/-- The predicted gain is a positive number, by the constant that bounds it from below. -/
theorem Judged.exists_gain (hpoint : point.IsReal) (hstep : Vec.IsReal trial.step)
    (h : trial.Judged options point penalty) : ∃ g, trial.feasibilityGain = real g ∧ 0 < g := by
  obtain ⟨image, linearized, himage, hlinearized, hgain⟩ := h.gain
  have hreal := (DenseMatrix.yields_mulVec hpoint.jacobian hstep).of_eq_ok himage
  obtain ⟨difference, hdifference⟩ :=
    hpoint.residual.norm.sub ((Vec.yields_add hreal hpoint.residual).of_eq_ok hlinearized).norm
  rw [hgain, hdifference, minFeasibilityGain, ofScientific_eq, maxNum_real]
  exact ⟨_, rfl, lt_max_of_lt_right (by norm_num)⟩

theorem Judged.secured (hoptions : options.Penalizing) (hpoint : point.IsReal)
    (hstep : Vec.IsReal trial.step) (hpenalty : penalty.IsReal) (hpos : 0 < penalty)
    (h : trial.Judged options point penalty) : trial.Secured options penalty := by
  obtain ⟨σ, hσ, hσ₀, hσ₁⟩ := exists_of_lt_of_lt hoptions.share_pos hoptions.share_lt_one
  obtain ⟨ρ, rfl⟩ := hpenalty
  obtain ⟨m, hm⟩ := h.isReal_model hpoint hstep
  obtain ⟨g, hg, hg₀⟩ := h.exists_gain hpoint hstep
  have hρ : 0 < ρ := real_lt.mp hpos
  obtain ⟨ρ', hρ', hle, hshare⟩ := exists_raisedPenalty (m := m) hσ hσ₁ hρ hg₀
  have hraised : trial.penalty = real ρ' := by rw [h.penalty, hm, hg, hρ']
  have hpredicted : trial.predicted = real (-m + ρ' * g) := by
    rw [h.predicted, hm, hg, hraised, real_neg, real_mul, real_add]
  exact {
    isReal_penalty := hraised ▸ isReal_real ρ'
    isReal_predicted := hpredicted ▸ isReal_real _
    penalty_le := hraised ▸ real_le.mpr hle
    share_le := by
      rw [hσ, hraised, hg, hpredicted, real_mul, real_mul]
      exact real_le.mpr hshare
    share_pos := by
      rw [hσ, hraised, hg, real_mul, real_mul]
      exact real_lt.mpr (mul_pos (mul_pos hσ₀ (hρ.trans_le hle)) hg₀) }

theorem Secured.predicted_pos (h : trial.Secured options penalty) : 0 < trial.predicted :=
  lt_of_lt_of_le h.share_pos h.share_le

/-- A trial whose outcome is as predicted is accepted. -/
theorem Secured.isAccepted (hratio : options.acceptableRatio ≤ 1)
    (h : trial.Secured options penalty) (hexact : trial.actual = trial.predicted) :
    trial.isAccepted options = true := by
  obtain ⟨p, hp⟩ := h.isReal_predicted
  have hpos : 0 < p := real_lt.mp (hp ▸ h.predicted_pos)
  have hquotient : trial.quotient = real 1 := by
    rw [quotient, hexact, hp, real_div hpos.ne', div_self hpos.ne']
  rw [isAccepted_iff, ratio, hquotient, if_pos (isFinite_real 1), ← one_eq]
  exact hratio

/-- An accepted trial reduces the merit by its share of the predicted reduction. -/
theorem Judged.merit_le (hoptions : options.Penalizing) (h : trial.Judged options point penalty)
    (hsecured : trial.Secured options penalty) {m m' : ℝ}
    (hmerit : point.objective + trial.penalty * Vec.norm point.residual = real m)
    (hnext : trial.objective + trial.penalty * Vec.norm trial.residual = real m')
    (taken : trial.isAccepted options = true) :
    real m' ≤ real m - options.acceptableRatio * trial.predicted ∧ real m' < real m := by
  obtain ⟨p, hp⟩ := hsecured.isReal_predicted
  have hpos : 0 < p := real_lt.mp (hp ▸ hsecured.predicted_pos)
  have hquotient : trial.quotient = real ((m - m') / p) := by
    rw [quotient, h.actual, hmerit, hnext, hp, real_sub, real_div hpos.ne']
  rw [isAccepted_iff, ratio, hquotient, if_pos (isFinite_real _)] at taken
  -- The ratio is a real number, so the ratio that it has to reach is one, too.
  obtain ⟨η, hη, hη₀, hle⟩ := exists_of_lt_of_le hoptions.ratio_pos taken
  have hreduced : η * p ≤ m - m' := (le_div_iff₀ hpos).mp hle
  have hproduct : 0 < η * p := mul_pos hη₀ hpos
  rw [hη, hp, real_mul, real_sub]
  exact ⟨real_le.mpr (by linarith), real_lt.mpr (by linarith)⟩

end Trial

namespace TrustRegion

open Run

variable {problem : InnerProblem Extended} {options : TrustRegionOptions Extended}
  {bounds : StepBox Extended} {z v : Vec Extended} {radius penalty : Extended}
  {s s' s₀ : State Extended} {trials : List (Trial Extended)} {trial : Trial Extended}

/-! ## One round -/

/-- The point consists of real numbers, and the penalty is a positive one. -/
structure State.Penalized (s : State Extended) : Prop where
  point : s.point.IsReal
  isReal_penalty : s.penalty.IsReal
  penalty_pos : 0 < s.penalty

theorem penalized_start (hproblem : problem.RealValued) (hz : Vec.IsReal z) (hv : Vec.IsReal v)
    (hpenalty : penalty.IsReal) (hpos : 0 < penalty)
    (h : start problem z v radius penalty = .ok s₀) : s₀.Penalized ∧ s₀.penalty = penalty := by
  have hpoint := isReal_start hproblem hz hv h
  obtain ⟨point, -, h⟩ := bind_eq_ok_iff.mp h
  cases h
  exact ⟨⟨hpoint, hpenalty, hpos⟩, rfl⟩

theorem penalty_of_moved (h : moved problem options s trial = .ok s') :
    s'.penalty = trial.penalty := by
  obtain ⟨point, -, h⟩ := bind_eq_ok_iff.mp h
  cases h
  rfl

theorem State.Penalized.secured (hoptions : options.Penalizing) (hbounds : bounds.AdmitsReals)
    (hs : s.Penalized) (proposed : attempt problem options bounds s = .ok trial) :
    trial.Secured options s.penalty :=
  (judged_of_attempt proposed).secured hoptions hs.point
    (isReal_step_of_attempt hbounds hs.point proposed) hs.isReal_penalty hs.penalty_pos

theorem Round.penalized (hproblem : problem.RealValued) (hoptions : options.Penalizing)
    (hbounds : bounds.AdmitsReals) (hs : s.Penalized) (h : Round problem options bounds s s') :
    s'.Penalized ∧ s.penalty ≤ s'.penalty := by
  cases h with
  | accepted _ proposed _ arrived =>
    have hsecured := hs.secured hoptions hbounds proposed
    have hnext := isReal_next_of_attempt hproblem hbounds hs.point proposed
    have hle := hsecured.penalty_le
    rw [← penalty_of_moved arrived] at hle
    refine ⟨⟨isReal_moved hproblem hnext (evaluated_of_attempt proposed) arrived, ?_, ?_⟩, hle⟩
    · rw [penalty_of_moved arrived]
      exact hsecured.isReal_penalty
    · exact lt_of_lt_of_le hs.penalty_pos hle
  | rejected _ _ _ =>
    obtain ⟨ρ, hρ⟩ := hs.isReal_penalty
    refine ⟨⟨hs.point, hs.isReal_penalty, hs.penalty_pos⟩, ?_⟩
    change s.penalty ≤ s.penalty
    exact le_refl (by rw [hρ]; exact nofun)

/-! ## Whole searches -/

theorem Path.penalized (hproblem : problem.RealValued) (hoptions : options.Penalizing)
    (hbounds : bounds.AdmitsReals) (h₀ : s₀.Penalized)
    (path : Path problem options bounds s₀ trials s) : s.Penalized := by
  induction path with
  | start => exact h₀
  | accepted _ going proposed taken arrived ih =>
    exact (Round.penalized hproblem hoptions hbounds ih
      (.accepted going proposed taken arrived)).1
  | rejected _ going proposed left ih =>
    exact (Round.penalized hproblem hoptions hbounds ih (.rejected going proposed left)).1

theorem pairwise_penalty (hproblem : problem.RealValued) (hoptions : options.Penalizing)
    (hbounds : bounds.AdmitsReals) {states : List (State Extended)} {ρ : Extended}
    (hchain : states.IsChain (Round problem options bounds))
    (hfirst : ∀ first ∈ states.head?, first.Penalized ∧ ρ ≤ first.penalty) :
    (ρ :: states.map State.penalty).Pairwise (· ≤ ·) := by
  -- The induction is on the chain. The invariant of states travels along it, and the penalty in
  -- front is that of the state before.
  induction states generalizing ρ with
  | nil => exact List.pairwise_singleton _ ρ
  | cons s states ih =>
    obtain ⟨hround, hchain⟩ := List.isChain_cons.mp hchain
    obtain ⟨hs, hle⟩ := hfirst s rfl
    have htail : (s.penalty :: states.map State.penalty).Pairwise (· ≤ ·) :=
      ih hchain fun next hnext ↦ (hround next hnext).penalized hproblem hoptions hbounds hs
    rw [List.map_cons]
    refine List.pairwise_cons.mpr ⟨?_, htail⟩
    intro ρ' hmem
    obtain rfl | hmem := List.mem_cons.mp hmem
    · exact hle
    · exact le_trans hle (List.rel_of_pairwise_cons htail hmem)

theorem pairwise_consulted (hproblem : problem.RealValued) (hoptions : options.Penalizing)
    (hbounds : bounds.AdmitsReals) (hz : Vec.IsReal z) (hv : Vec.IsReal v)
    (hpenalty : penalty.IsReal) (hpos : 0 < penalty) (limit : ℕ) :
    (penalty :: (solve problem options bounds z v radius penalty limit).2.consulted.toList.map
      Report.penalty).Pairwise (· ≤ ·) := by
  obtain ⟨states, hchain, hfirst, hconsulted⟩ :=
    consulted_solve problem options bounds z v radius penalty limit
  rw [hconsulted, List.map_map]
  refine pairwise_penalty hproblem hoptions hbounds hchain fun first h ↦ ?_
  obtain ⟨hpenalized, heq⟩ := penalized_start hproblem hz hv hpenalty hpos (hfirst first h)
  obtain ⟨ρ, rfl⟩ := hpenalty
  exact ⟨hpenalized, heq ▸ real_le.mpr le_rfl⟩

theorem admitsReals_unbounded (n : ℕ) : StepBox.AdmitsReals (.unbounded n) := by
  constructor
  · intro l hl
    rw [List.eq_of_mem_replicate hl]
    exact nofun
  · intro u hu
    rw [List.eq_of_mem_replicate hu]
    exact nofun

/-- **Merit and penalty.** Over the real numbers, the penalty of every trial that a solve makes is at
least the one at the start of its round, and the predicted reduction is positive, being at least the
share of what is predicted for the constraints. An accepted trial reduces the merit function at this
penalty by the share of the prediction that the options ask for, and the solve moves to its end with
this penalty. A rejected one leaves the iterate, all that is known about it, and the penalty as they
were. The penalties of the reports never fall. -/
theorem accepted_reduces_merit (hproblem : problem.RealValued)
    (hobjective : ∀ z f, Vec.IsReal z → problem.objective z = .ok f → f.IsReal)
    (hoptions : options.Penalizing) (hbounds : bounds.AdmitsReals) (hz : Vec.IsReal z)
    (hv : Vec.IsReal v) (hpenalty : penalty.IsReal) (hpos : 0 < penalty) :
    (∀ limit left s j trial j',
      Arrives problem options bounds z v radius penalty limit (left + 1) s j →
      Proposes problem options bounds s j trial j' →
        (bounds.dim = problem.dim → solve problem options bounds z v radius penalty limit =
          (settle problem options s trial >>= search problem options bounds left).run j')
        ∧ trial.Judged options s.point s.penalty
        ∧ trial.Secured options s.penalty ∧ 0 < trial.predicted
        ∧ (trial.isAccepted options = true →
          (∃ m m' : ℝ, problem.merit trial.penalty s.point.iterate = .ok (real m)
            ∧ problem.merit trial.penalty trial.next = .ok (real m')
            ∧ real m' ≤ real m - options.acceptableRatio * trial.predicted ∧ real m' < real m)
          ∧ ∀ j, ∃ outcome, Ends (settle problem options s trial) j outcome trial.next
            ∧ ∀ s', outcome = .ok s' →
              s'.point.iterate = trial.next ∧ s'.penalty = trial.penalty)
        ∧ (trial.isAccepted options = false → ∀ j, ∃ s',
          Ends (settle problem options s trial) j (.ok s') j.iterate
          ∧ s'.point = s.point ∧ s'.penalty = s.penalty))
    ∧ ∀ limit, (penalty :: (solve problem options bounds z v radius penalty
      limit).2.consulted.toList.map Report.penalty).Pairwise (· ≤ ·) := by
  refine ⟨?_, pairwise_consulted hproblem hoptions hbounds hz hv hpenalty hpos⟩
  intro limit left s j trial j' arrives proposes
  obtain ⟨s₀, trials, hs₀, path, -⟩ := arrives.exists_path
  have proposed := proposes.attempt.1
  obtain ⟨h₀, -⟩ := penalized_start hproblem hz hv hpenalty hpos hs₀
  have hs := path.penalized hproblem hoptions hbounds h₀
  have hjudged := judged_of_attempt proposed
  have hsecured := hs.secured hoptions hbounds proposed
  refine ⟨fun hdim ↦ arrives.solve_eq_settle hdim proposes, hjudged, hsecured,
    hsecured.predicted_pos, fun taken ↦ ⟨?_, fun j ↦ ?_⟩, fun left j ↦ ?_⟩
  · have hfresh := path.fresh (start_eq_ok hs₀).2.1
    have hevaluated := evaluated_of_attempt proposed
    have hnext := isReal_next_of_attempt hproblem hbounds hs.point proposed
    obtain ⟨m, hm⟩ := (hobjective _ _ hs.point.iterate hfresh.objective).add
      (hsecured.isReal_penalty.mul hs.point.residual.norm)
    obtain ⟨m', hm'⟩ := (hobjective _ _ hnext hevaluated.objective).add
      (hsecured.isReal_penalty.mul (hproblem.constraints _ _ hnext hevaluated.residual).norm)
    refine ⟨m, m', ?_, ?_, hjudged.merit_le hoptions hsecured hm hm' taken⟩
    · rw [hfresh.merit, hm]
    · rw [hevaluated.merit, hm']
  · exact ⟨_, settle_ends_of_accepted taken, fun s' hs' ↦
      ⟨Point.iterate_of_complete (moved_eq_ok hs').1, penalty_of_moved hs'⟩⟩
  · exact ⟨stayed options s trial, settle_ends_of_rejected left, rfl, rfl⟩

/-! ### The first round on the way to the ledge -/

variable {p : Projector Extended}

theorem isReal_objective_ledge {z : Vec Extended} {f : Extended} (hz : Vec.IsReal z)
    (h : ledge.objective z = .ok f) : f.IsReal := by
  obtain ⟨x, hx, h⟩ := bind_eq_ok_iff.mp h
  obtain ⟨y, hy, h⟩ := bind_eq_ok_iff.mp h
  cases h
  have hxr := (Vec.yields_entry hz 0).of_eq_ok hx
  have hyr := (Vec.yields_entry hz 1).of_eq_ok hy
  exact (hyr.mul hyr).sub (hxr.add hxr)

theorem evaluated_ledge (h : trial.Evaluated ledge (ledgePoint p 1 1))
    (hstep : trial.step = [real (-1), real (-1)]) :
    trial.next = [real 0, real 0] ∧ trial.objective = real 0 ∧ trial.residual = [real 0] := by
  obtain ⟨scaling, change, hscaling, hchange, hadd⟩ := h.next
  cases hscaling
  have hchange' : (Operator.identity 2).apply [real (-1), real (-1)] =
      .ok [real (-1), real (-1)] := by
    change Except.ok [real (-1 * 1), real (-1 * 1)] = _
    rw [mul_one]
  have hadd' : Vec.add [real 1, real 1] [real (-1), real (-1)] = .ok [real 0, real 0] := by
    change Except.ok [real (1 + -1), real (1 + -1)] = _
    rw [add_neg_cancel]
  have hobjective : ledge.objective [real 0, real 0] = .ok (real 0) := by
    change Except.ok (real (0 * 0 - (0 + 0))) = _
    norm_num
  rw [hstep, hchange'] at hchange
  cases hchange
  have hnext : trial.next = [real 0, real 0] := Except.ok.inj (hadd.symm.trans hadd')
  have hend := h.objective
  have hrows := h.residual
  rw [hnext] at hend hrows
  exact ⟨hnext, Except.ok.inj (hend.symm.trans hobjective), (Except.ok.inj hrows).symm⟩

theorem model_ledge (hjudged : trial.Judged {} (ledgePoint p 1 1) (real 1))
    (hstep : trial.step = [real (-1), real (-1)]) : trial.model = real 1 := by
  obtain ⟨image, curvature, slope, himage, hcurvature, hslope, hmodel⟩ := hjudged.model
  rw [hstep] at himage hcurvature hslope
  cases himage
  cases hcurvature
  cases hslope
  rw [hmodel]
  change real (0.5 * (0 + -1 * 0 * -1 + -1 * (1 + 1) * -1)
    + (0 + -(1 + 1) * -1 + (1 + 1) * -1)) = _
  norm_num

/-- The step is predicted to reach the ledge. -/
theorem gain_ledge (hjudged : trial.Judged {} (ledgePoint p 1 1) (real 1))
    (hstep : trial.step = [real (-1), real (-1)]) : trial.feasibilityGain = real 1 := by
  obtain ⟨image, linearized, himage, hlinearized, hgain⟩ := hjudged.gain
  rw [hstep] at himage
  cases himage
  cases hlinearized
  rw [hgain]
  change Scalar.maxNum (Vec.norm [real 1] - Vec.norm [real (1 * -1 + 0 * -1 + 1)])
    Trial.minFeasibilityGain = _
  rw [Vec.norm_single, Vec.norm_single, real_sub, Trial.minFeasibilityGain, ofScientific_eq,
    maxNum_real]
  norm_num

/-- The penalty is raised, and the model is exact at the end. -/
theorem judged_ledge (hjudged : trial.Judged {} (ledgePoint p 1 1) (real 1))
    (hevaluated : trial.Evaluated ledge (ledgePoint p 1 1))
    (hstep : trial.step = [real (-1), real (-1)]) :
    trial.penalty = real (10 / 7) ∧ trial.predicted = real (3 / 7)
      ∧ trial.actual = trial.predicted := by
  obtain ⟨-, hobjective, hresidual⟩ := evaluated_ledge hevaluated hstep
  have hmodel := model_ledge hjudged hstep
  have hgain := gain_ledge hjudged hstep
  have hpenalty : trial.penalty = real (10 / 7) := by
    rw [hjudged.penalty, hmodel, hgain, Trial.raisedPenalty, zero_eq,
      if_pos (real_lt.mpr one_pos)]
    change Scalar.maxNum (real 1) (real 1 / real ((1 - 0.3) * 1)) = _
    rw [real_div (by norm_num), maxNum_real]
    norm_num
  have hpredicted : trial.predicted = real (3 / 7) := by
    rw [hjudged.predicted, hmodel, hgain, hpenalty, real_neg, real_mul, real_add]
    norm_num
  refine ⟨hpenalty, hpredicted, ?_⟩
  rw [hpredicted, hjudged.actual, hobjective, hresidual, hpenalty]
  change real (1 * 1 - (1 + 1)) + real (10 / 7) * Vec.norm [real 1]
    - (real 0 + real (10 / 7) * Vec.norm [real 0]) = _
  rw [Vec.norm_single, Vec.norm_single, real_mul, real_mul, real_add, real_add, real_sub]
  norm_num

theorem accepted_ledge (hp : Projector.ofMatrix ledgeRow = .ok p)
    (proposed : attempt ledge {} ledgeBounds (ledgeStart p 2) = .ok trial)
    (hstep : trial.step = [real (-1), real (-1)]) : trial.isAccepted {} = true := by
  have hz : Vec.IsReal [real 1, real 1] := by simp [Vec.isReal_cons]
  have hv : Vec.IsReal [real 0] := by simp [Vec.isReal_cons]
  obtain ⟨h₀, -⟩ := penalized_start realValued_ledge hz hv (isReal_real 1) (real_lt.mpr one_pos)
    (start_ledge hp)
  have hratio : real 1e-8 ≤ real 1 := real_le.mpr (by norm_num)
  obtain ⟨-, -, hexact⟩ :=
    judged_ledge (judged_of_attempt proposed) (evaluated_of_attempt proposed) hstep
  exact (h₀.secured TrustRegionOptions.penalizing_default admitsZero_ledge.admitReals
    proposed).isAccepted hratio hexact

noncomputable def ledgeEnd (p : Projector Extended) (trial : Trial Extended) : State Extended where
  point := ledgePoint p 0 0
  radius := trial.nextRadius {} (real (1 + 1))
  penalty := trial.penalty
  rounds := 1

theorem moved_ledge (hp : Projector.ofMatrix ledgeRow = .ok p)
    (h : trial.Evaluated ledge (ledgePoint p 1 1)) (hstep : trial.step = [real (-1), real (-1)]) :
    moved ledge {} (ledgeStart p 2) trial = .ok (ledgeEnd p trial) := by
  obtain ⟨hnext, hobjective, hresidual⟩ := evaluated_ledge h hstep
  have hcomplete := complete_ledge hp 0 0 none
  rw [mul_zero, add_zero, sub_zero] at hcomplete
  rw [moved, hnext, hobjective, hresidual, hcomplete, ledgeEnd, one_add_one_eq_two]
  rfl

/-- On the way to the ledge, the first trial raises the penalty and is accepted. -/
theorem ledge_reduces_merit :
    ∃ s j trial j', Arrives ledge {} ledgeBounds [real 1, real 1] [real 0] (real 2) (real 1) 2 2 s j
      ∧ Proposes ledge {} ledgeBounds s j trial j' ∧ s.penalty < trial.penalty
      ∧ 0 < trial.predicted ∧ trial.isAccepted {} = true
      ∧ (∃ m m' : ℝ, ledge.merit trial.penalty s.point.iterate = .ok (real m)
        ∧ ledge.merit trial.penalty trial.next = .ok (real m')
        ∧ real m' ≤ real m - real 1e-8 * trial.predicted ∧ real m' < real m)
      ∧ (∀ j, ∃ outcome, Ends (settle ledge {} s trial) j outcome trial.next
        ∧ ∀ s', outcome = .ok s' →
          s'.point.iterate = trial.next ∧ s'.penalty = trial.penalty)
      ∧ (real 1 :: (solve ledge {} ledgeBounds [real 1, real 1] [real 0] (real 2) (real 1)
        2).2.consulted.toList.map Report.penalty).Pairwise (· ≤ ·) := by
  obtain ⟨p, hp⟩ := exists_projector_ledge
  have arrives : Arrives ledge {} ledgeBounds [real 1, real 1] [real 0] (real 2) (real 1) 2 2
      (ledgeStart p 2) ⟨[real 1, real 1], #[], #[]⟩ := .start (start_ledge hp)
  obtain ⟨trial, j', proposes, hstep⟩ := exists_proposes_ledge hp ⟨[real 1, real 1], #[], #[]⟩
  have hz : Vec.IsReal [real 1, real 1] := by simp [Vec.isReal_cons]
  have hv : Vec.IsReal [real 0] := by simp [Vec.isReal_cons]
  obtain ⟨hrounds, hpenalties⟩ := accepted_reduces_merit realValued_ledge
    (fun _ _ ↦ isReal_objective_ledge) TrustRegionOptions.penalizing_default
    admitsZero_ledge.admitReals hz hv (isReal_real 1) (real_lt.mpr one_pos)
  obtain ⟨-, hjudged, -, hpredicted, haccepted, -⟩ := hrounds 2 1 _ _ trial j' arrives proposes
  obtain ⟨hpenalty, -⟩ := judged_ledge hjudged (evaluated_of_attempt proposes.attempt.1) hstep
  have taken := accepted_ledge hp proposes.attempt.1 hstep
  obtain ⟨hmerit, hmoves⟩ := haccepted taken
  refine ⟨_, _, trial, j', arrives, proposes, ?_, hpredicted, taken, hmerit, hmoves, hpenalties 2⟩
  rw [hpenalty]
  exact real_lt.mpr (by norm_num)

end TrustRegion

end LogBarrier
