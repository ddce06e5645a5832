import LogBarrier.Proofs.Continuation.Accuracy
import LogBarrier.Proofs.Continuation.Termination
import LogBarrier.Proofs.Shape.Missing

/-!
# Runs that end

A run of a continuation with total functions ends after a bounded number of calls, with a report,
with an error of the solver, or in the fault of a slack that is not positive. The last cannot happen
over the real numbers, but a single value that is not a number is enough for it. A step whose trial
has such a value is rejected, but a step which is itself not a number passes every bound, and then
the barrier refuses the slack at its end.
-/

namespace LogBarrier

open Extended

/-- The functions of the user answer every point in the shapes that are declared. -/
structure ContinuationSetup.Total {α : Type} [Scalar α] (setup : ContinuationSetup α) : Prop where
  objective : setup.objective.Total setup.equality.count setup.inequality.count
  equality : setup.equality.Total setup.objective.domain.dim
  inequality : setup.inequality.Total setup.objective.domain.dim

namespace Continuation

theorem Built.total {α σ ε : Type} [Scalar α] {setup : ContinuationSetup α}
    {solver : InnerSolver α σ ε} {c : Continuation α σ ε} (hsetup : setup.Total)
    (h : Built setup solver c) : c.subproblem.Total := by
  have hcount : c.subproblem.variableCount = setup.objective.domain.dim := by
    rw [SlackForm.variableCount, h.objective]
  obtain ⟨hinequality, hequality⟩ := SlackForm.cols_of_checkParts h.checked
  constructor
  · rw [h.objective, h.equality, h.inequality]
    exact hsetup.objective
  · rw [h.equality, hcount]
    exact hsetup.equality
  · rw [h.inequality, hcount]
    exact hsetup.inequality
  · exact hequality
  · exact hinequality

/-! ## The invariant -/

section Invariant

variable {α : Type} [Scalar α] {setup : ContinuationSetup α} {options : TrustRegionOptions α}
  {c : TrustRegionContinuation α} {allowed : Fault → Prop}

/-- What holds of a continuation with total functions before and after every call. -/
structure Shaped (options : TrustRegionOptions α) (c : TrustRegionContinuation α) : Prop where
  solver : c.solver = InnerSolver.trustRegion options
  bounds : c.bounds = stepBox c.subproblem
  subproblem : c.subproblem.Total
  iterate : c.iterate.length = c.subproblem.dim
  multipliers : c.controls.multipliers.length = c.subproblem.constraintCount

theorem Built.shapedWith (hsetup : setup.Total)
    (h : Built setup (InnerSolver.trustRegion options) c) : c.Shaped options where
  solver := h.solver
  bounds := h.bounds
  subproblem := h.total hsetup
  iterate := by
    rw [h.iterate, SlackForm.start, List.length_append, List.length_replicate,
      SlackForm.length_initial h.checked, SlackForm.dim]
  multipliers := h.length_multipliers

theorem Shaped.dim_bounds (hc : c.Shaped options) : c.task.bounds.dim = c.task.problem.dim := by
  rw [task, hc.bounds]
  exact dim_stepBox c.subproblem

/-- A call keeps a continuation shaped, and the only faults that it can end in are that of a slack
and that of a zero pivot, which need not be allowed where it is always noticed. -/
theorem Shaped.step_of_allowed (hc : c.Shaped options) (hslack : allowed .slackNotPositive)
    (hpivots : Projector.DetectsZero α ∨ allowed .zeroPivot) :
    c.step.2.Shaped options ∧ FaultsWithin allowed c.step.1 := by
  obtain ⟨hiterate, hfaults, hmultipliers⟩ :
      (c.solvedWith options).2.iterate.length = c.subproblem.dim
        ∧ FaultsWithin allowed (c.solvedWith options).1
        ∧ ∀ report, (c.solvedWith options).1 = .ok report →
          report.multipliers.length = c.subproblem.constraintCount :=
    TrustRegion.solve_shaped
      (SlackForm.shaped_atLevel hc.subproblem c.controls.level hslack hpivots) hc.dim_bounds
      hc.iterate hc.multipliers c.task.radius c.task.penalty c.task.limit
  cases h : (c.solvedWith options).1 with
  | error failure =>
    rw [step_of_solvedWith_error hc.solver h]
    rw [h] at hfaults
    exact ⟨⟨hc.solver, hc.bounds, hc.subproblem, hiterate, hc.multipliers⟩, hfaults.error⟩
  | ok report =>
    rw [step_of_solvedWith_ok hc.solver h]
    exact ⟨⟨hc.solver, hc.bounds, hc.subproblem, hiterate, hmultipliers report h⟩, nofun⟩

theorem Shaped.after (hc : c.Shaped options) (n : ℕ) : (c.after n).Shaped options := by
  induction n with
  | zero => exact hc
  | succ n ih =>
    have hstep : _ ∧ FaultsWithin (fun _ ↦ True) _ := ih.step_of_allowed trivial (.inr trivial)
    exact hstep.1

end Invariant

variable {setup : ContinuationSetup Extended} {options : TrustRegionOptions Extended}
  {journals : List (Journal Extended)} {c : TrustRegionContinuation Extended}

/-- Over the extended real numbers, the only fault is that of a slack. -/
theorem Shaped.step (hc : c.Shaped options) :
    c.step.2.Shaped options ∧ FaultsWithin (· = .slackNotPositive) c.step.1 :=
  hc.step_of_allowed rfl (.inl Projector.detectsZero)

/-! ## Runs -/

theorem Built.decays {τ : ℝ} {K : ℕ} (hτ : setup.options.initialTolerance = real τ)
    (hradius : options.minRadius ≤ setup.options.initialRadius) (hK : τ * 0.2 ^ K ≤ 1e-8)
    (h : Built setup (InnerSolver.trustRegion options) c) : c.Decays options τ K where
  solver := h.solver
  tolerance := h.tolerance.trans hτ
  minRadius_le_initial := by
    rw [h.options]
    exact hradius
  minRadius_le := by
    rw [h.radius]
    exact hradius
  decayed := hK

theorem exists_isLeast_decayed (τ : ℝ) : ∃ K, IsLeast {k : ℕ | τ * 0.2 ^ k ≤ 1e-8} K := by
  have htendsto : Filter.Tendsto (fun k : ℕ ↦ τ * (0.2 : ℝ) ^ k) Filter.atTop (nhds (τ * 0)) :=
    (tendsto_pow_atTop_nhds_zero_of_lt_one (by norm_num) (by norm_num)).const_mul τ
  rw [mul_zero] at htendsto
  obtain ⟨k, hk⟩ := (htendsto.eventually (ge_mem_nhds (by norm_num : (0 : ℝ) < 1e-8))).exists
  exact ⟨_, isLeast_csInf ⟨k, hk⟩⟩

/-- **Runs end.** Every inner solve does at most one round more than it is allowed. Every run that
is allowed enough calls ends with one of them, after at most as many calls as it takes the tolerance
to decay to the accuracy, and a thousand more. It ends with a report, whose iterations are bounded,
or with an error of the solver, or else in the fault of a slack that is not positive. It never ends
in that fault, or in any other, if the data are real numbers and each normal step is given a proper
share of its bounds. -/
theorem run_ends {τ : ℝ} (htotal : setup.Total) (hτ : setup.options.initialTolerance = real τ)
    (hradius : options.minRadius ≤ setup.options.initialRadius)
    (hc : ofSetup setup (InnerSolver.trustRegion options) journals = .ok c) :
    (∀ n trials, (c.after n).Performs options trials →
      trials.length ≤ setup.options.maxInnerIterations + 1)
    ∧ ∃ K, IsLeast {k : ℕ | τ * 0.2 ^ k ≤ 1e-8} K ∧ ∀ limit, K + 1001 ≤ limit →
      (∃ n ≤ K + 1000, (∀ m < n, (c.after m).Continues) ∧ c.run limit = (c.after n).step)
      ∧ ((∃ report, (c.run limit).1 = .ok report
          ∧ report.iterations ≤ 1000 + setup.options.maxInnerIterations + 1)
        ∨ (∃ e, (c.run limit).1 = .error (.error e))
        ∨ ((c.run limit).1 = .error (.fault .slackNotPositive)
          ∧ ¬(setup.RealValued ∧ options.SharesBounds))) := by
  have hbuilt := built_of_ofSetup hc
  constructor
  · intro n trials h
    have hle := h.length_le
    rwa [subproblem_after, hbuilt.maxIterations] at hle
  obtain ⟨K, hK⟩ := exists_isLeast_decayed τ
  refine ⟨K, hK, fun limit hlimit ↦ ?_⟩
  obtain ⟨n, hn, hbefore, hrun⟩ := (hbuilt.decays hτ hradius hK.1).exists_last_call hlimit
  refine ⟨⟨n, hn, hbefore, hrun⟩, ?_⟩
  rw [hrun]
  cases h : (c.after n).step.1 with
  | ok report =>
    have hle := iterations_le_of_after hbuilt.solver hbuilt.iterations hbefore h
    rw [hbuilt.maxIterations] at hle
    exact .inl ⟨report, rfl, hle⟩
  | error failure =>
    right
    cases failure with
    | error e => exact .inl ⟨e, rfl⟩
    | unfinished =>
      exact absurd h (step_ne_unfinished ((frame_after c n).1.trans hbuilt.solver))
    | fault cause =>
      obtain rfl := (((hbuilt.shapedWith htotal).after n).step).2 cause h
      refine .inr ⟨rfl, fun ⟨hreal, hshare⟩ ↦ ?_⟩
      exact (((hbuilt.soundWith hshare hreal).after n).step).2 _ h rfl

/-! ## The parabola -/

theorem total_parabolaSetup : parabolaSetup.Total where
  objective := {
    value := fun x hx ↦ by
      obtain ⟨a, rfl⟩ := List.length_eq_one_iff.mp hx
      exact ⟨_, rfl⟩
    gradient := fun x hx ↦ by
      obtain ⟨a, rfl⟩ := List.length_eq_one_iff.mp hx
      exact ⟨_, rfl, rfl⟩
    hessian := fun _ _ _ _ _ _ ↦ ⟨_, rfl, .dense _, rfl, rfl⟩ }
  equality := Constraints.total_none _
  inequality := Constraints.total_none _

/-- It takes the default tolerance eleven calls to decay to the accuracy. -/
theorem eq_of_isLeast_decayed {K : ℕ} (h : IsLeast {k : ℕ | (0.1 : ℝ) * 0.2 ^ k ≤ 1e-8} K) :
    K = 11 := by
  have heleven : 11 ∈ {k : ℕ | (0.1 : ℝ) * 0.2 ^ k ≤ 1e-8} := by
    change (0.1 : ℝ) * 0.2 ^ 11 ≤ 1e-8
    norm_num
  refine le_antisymm (h.2 heleven) ?_
  by_contra hlt
  have hpow : (0.2 : ℝ) ^ 10 ≤ 0.2 ^ K :=
    pow_le_pow_of_le_one (by norm_num) (by norm_num) (by omega)
  have hK : (0.1 : ℝ) * 0.2 ^ K ≤ 1e-8 := h.1
  norm_num at hpow hK
  linarith

/-- A run for the parabola ends after at most 1012 calls, and not in a fault. -/
theorem parabola_run_ends :
    ∃ c : TrustRegionContinuation Extended,
      ofSetup parabolaSetup (InnerSolver.trustRegion {}) [] = .ok c ∧ parabolaSetup.Total
      ∧ (∃ n ≤ 1011, c.run 1012 = (c.after n).step)
      ∧ ((∃ report, (c.run 1012).1 = .ok report ∧ report.iterations ≤ 2001)
        ∨ ∃ e, (c.run 1012).1 = .error (.error e)) := by
  obtain ⟨c, hc⟩ : ∃ c : TrustRegionContinuation Extended,
    ofSetup parabolaSetup (InnerSolver.trustRegion {}) [] = .ok c := ⟨_, rfl⟩
  have hτ : parabolaSetup.options.initialTolerance = real 0.1 := rfl
  have hradius :
      ({} : TrustRegionOptions Extended).minRadius ≤ parabolaSetup.options.initialRadius := by
    change (1e-8 : ℝ) ≤ 1.0
    norm_num
  obtain ⟨-, K, hK, hends⟩ := run_ends total_parabolaSetup hτ hradius hc
  obtain rfl := eq_of_isLeast_decayed hK
  obtain ⟨⟨n, hn, -, hrun⟩, hresult⟩ := hends 1012 le_rfl
  refine ⟨c, hc, total_parabolaSetup, ⟨n, hn, hrun⟩, ?_⟩
  obtain hreport | herror | ⟨-, hunreal⟩ := hresult
  · exact .inl hreport
  · exact .inr herror
  · exact absurd ⟨realValued_parabolaSetup, TrustRegionOptions.sharesBounds_default⟩ hunreal

/-! ## A missing constraint -/

/-- **A missing constraint ends the run.** A call that starts where a constraint is not a number,
and that does not end there, ends in the fault of a slack. -/
theorem Shaped.step_of_missing (hc : c.Shaped options) (hslack : 0 < c.subproblem.slackCount)
    {s₀ : TrustRegion.State Extended}
    (hs₀ : TrustRegion.start c.task.problem c.task.iterate c.task.multipliers c.task.radius
      c.task.penalty = .ok s₀)
    (hgoing : TrustRegion.GoesOn c.task.problem options s₀) (h : nan ∈ s₀.point.residual) :
    c.step.1 = .error (.fault .slackNotPositive) := by
  have hdim := hc.dim_bounds
  have hproblem : c.task.problem.Shaped (· = .slackNotPositive) :=
    SlackForm.shaped_atLevel hc.subproblem c.controls.level rfl (.inl Projector.detectsZero)
  have hpoint := TrustRegion.shaped_start hproblem hc.iterate hc.multipliers hs₀
  have hattempt : TrustRegion.attempt c.task.problem options c.task.bounds s₀
      = .error .slackNotPositive :=
    TrustRegion.attempt_of_missing hc.subproblem hslack hdim hpoint h
  have hsolved : (c.solvedWith options).1 = .error (.fault .slackNotPositive) :=
    (TrustRegion.solve_of_attempt_eq_error c.task.limit hdim hs₀ hgoing hattempt).resolve_right
      solvedWith_ne_unfinished
  rw [step_of_solvedWith_error hc.solver hsolved]

section Logarithm

open SlackForm

/-- The identity, to be minimized where the logarithm is not negative, from a point where there is
no logarithm. -/
noncomputable def logarithmSetup : ContinuationSetup Extended where
  objective := TermSum.objective (Box.free 1 Nat.one_pos) [.monomial 1 [1]] []
    [[.elementary (-1) .ln 0]]
  inequality := TermSum.constraints [[.elementary (-1) .ln 0]]
  initial := [-1]
  multipliers := some [0]

theorem total_logarithmSetup : logarithmSetup.Total where
  objective := {
    value := fun x hx ↦ by
      obtain ⟨a, rfl⟩ := List.length_eq_one_iff.mp hx
      exact ⟨_, rfl⟩
    gradient := fun x hx ↦ by
      obtain ⟨a, rfl⟩ := List.length_eq_one_iff.mp hx
      exact ⟨_, rfl, rfl⟩
    hessian := fun x v w hx hv hw ↦ by
      obtain ⟨a, rfl⟩ := List.length_eq_one_iff.mp hx
      obtain ⟨b, rfl⟩ := List.length_eq_one_iff.mp hw
      obtain rfl := List.length_eq_zero_iff.mp hv
      exact ⟨_, rfl, .dense _, rfl, rfl⟩ }
  equality := Constraints.total_none _
  inequality := {
    value := fun x hx ↦ by
      obtain ⟨a, rfl⟩ := List.length_eq_one_iff.mp hx
      exact ⟨_, rfl, rfl⟩
    jacobian := fun x hx ↦ by
      obtain ⟨a, rfl⟩ := List.length_eq_one_iff.mp hx
      exact ⟨_, rfl, .dense _, rfl, rfl⟩ }

noncomputable def logarithmForm : SlackForm Extended where
  objective := logarithmSetup.objective
  inequality := logarithmSetup.inequality
  equality := .none
  affineInequality := .empty 1
  affineEquality := .empty 1
  initial := [-1]
  maxIterations := 1000

theorem constraints_logarithm : logarithmForm.constraints [real (-1), real 1] = .ok [nan] := by
  have hln : Scalar.ln (real (-1)) = nan := by
    change (if (0 : ℝ) < -1 then real (Real.log (-1)) else if (-1 : ℝ) = 0 then negInf else nan) = _
    rw [if_neg (by norm_num), if_neg (by norm_num)]
  change Except.ok [0 + -1 * Scalar.ln (real (-1)) + real 1] = _
  rw [hln, mul_nan, add_nan, nan_add]

theorem gradient_logarithm {level : Level Extended} {μ : ℝ} (hlevel : level.parameter = real μ) :
    logarithmForm.gradient level [real (-1), real 1] = .ok [real 1, real (-μ)] := by
  have hslope : (0 + 1 * ((1 : ℕ) : Extended)) = real 1 := by
    change real (0 + 1 * (1 : ℕ)) = real 1
    norm_num
  change Except.ok [0 + 1 * ((1 : ℕ) : Extended), -level.parameter] = _
  rw [hslope, hlevel]
  rfl

theorem value_logarithm (level : Level Extended) :
    ∃ f, logarithmForm.value level [real (-1), real 1] = .ok f := by
  change ∃ f, (requirePositive [real 1] >>= _) = .ok f
  rw [requirePositive_singleton one_pos]
  exact ⟨_, rfl⟩

theorem hessian_logarithm (level : Level Extended) (v : ℝ) :
    ∃ h, logarithmForm.hessian level [real (-1), real 1] [real v] = .ok h := by
  obtain ⟨w, hw⟩ :
      ∃ w, logarithmForm.slackHessian level [real (-1), real 1] [real v] = .ok [w] := by
    change ∃ w, (requirePositive [real 1] >>= _) = .ok [w]
    rw [requirePositive_singleton one_pos]
    exact ⟨_, rfl⟩
  change ∃ h, (logarithmForm.slackHessian level [real (-1), real 1] [real v] >>= _) = .ok h
  rw [hw]
  exact ⟨_, rfl⟩

theorem jacobian_logarithm : ∃ op, logarithmForm.jacobian [real (-1), real 1] = .ok op
    ∧ op.toMatrix.rows = 1 ∧ op.toMatrix.cols = 2 ∧ op.toMatrix.columns = [[real 1], [real 1]]
    ∧ op.toMatrix.transpose.columns = [[real 1, real 1]] := by
  have hslope : (0 + -1 * (1 / real (-1)) : Extended) = real 1 := by
    rw [one_eq, real_div (by norm_num)]
    change real (0 + -1 * (1 / -1)) = real 1
    norm_num
  refine ⟨_, rfl, rfl, rfl, ?_, ?_⟩
  · change [[0 + -1 * (1 / real (-1))], [real 1]] = _
    rw [hslope]
  · change [[0 + -1 * (1 / real (-1)), real 1]] = _
    rw [hslope]

/-- The first point of the logarithm has no residual, and its optimality is not small. -/
theorem start_logarithm {level : Level Extended} (hlevel : level.parameter = real 0.1)
    (radius penalty : Extended) :
    ∃ s, TrustRegion.start (logarithmForm.atLevel level) [real (-1), real 1] [real 0] radius penalty
        = .ok s
      ∧ s.radius = radius ∧ s.rounds = 0 ∧ s.point.residual = [nan]
      ∧ ¬s.report.optimality < real 0.1 := by
  obtain ⟨f, hf⟩ := value_logarithm level
  obtain ⟨h, hh⟩ := hessian_logarithm level 0
  obtain ⟨op, hop, hrows, hcols, hcolumns, hrow⟩ := jacobian_logarithm
  obtain ⟨projector, hprojector, hcoefficients⟩ :=
    Projector.ofMatrix_of_row (r := [1, 1]) hrows hrow (by norm_num) (by rw [hcols]; norm_num)
  have hg := gradient_logarithm hlevel
  obtain ⟨u, hu⟩ := hcoefficients [real 1, real (-0.1)] hcols.symm
  obtain ⟨y, rfl⟩ : u.IsReal := by
    have hmatrix : op.toMatrix.IsReal := by
      rw [DenseMatrix.IsReal, hcolumns]
      simp [Vec.isReal_cons]
    have hyields := Projector.yields_coefficients
      (Projector.isReal_of_ofMatrix hmatrix hprojector)
      (x := [real 1, real (-0.1)]) (by simp [Vec.isReal_cons])
    exact hyields.of_eq_ok hu u (List.mem_singleton_self u)
  have hw : op.toMatrix.trMulVec (Vec.neg [real y]) = .ok [real (-y), real (-y)] := by
    have hentry : Vec.dotSum [real 1] (Vec.neg [real y]) = real (-y) := by
      change real (0 + 1 * -y) = real (-y)
      rw [zero_add, one_mul]
    have hlength : (Vec.neg [real y]).length = op.toMatrix.rows := hrows.symm
    rw [DenseMatrix.trMulVec, if_pos hlength, hcolumns, List.map_cons, List.map_singleton, hentry]
  refine ⟨_, congrArg (· >>= _) (Point.evaluate_eq_ok hf constraints_logarithm hg hop hprojector hu
    hh hw rfl), rfl, rfl, rfl, fun hsmall ↦ ?_⟩
  -- The two entries differ by more than it takes for both to be small.
  have hentries := (Vec.maxNorm_lt_iff (by norm_num)).mp hsmall
  have hfirst : |1 + -y| < 0.1 := smallOrMissing_real.mp (hentries _ List.mem_cons_self)
  have hsecond : |-0.1 + -y| < 0.1 :=
    smallOrMissing_real.mp (hentries _ (List.mem_cons_of_mem _ List.mem_cons_self))
  rw [abs_lt] at hfirst hsecond
  linarith

/-- **A run that faults.** The functions are total, the options are the default ones, and yet no
run ends with a report or with an error. -/
theorem logarithm_run_faults :
    ∃ c : TrustRegionContinuation Extended,
      ofSetup logarithmSetup (InnerSolver.trustRegion {}) [] = .ok c ∧ logarithmSetup.Total
      ∧ logarithmSetup.options.initialTolerance = real 0.1
      ∧ ({} : TrustRegionOptions Extended).minRadius ≤ logarithmSetup.options.initialRadius
      ∧ ∀ limit, (c.run (limit + 1)).1 = .error (.fault .slackNotPositive) := by
  obtain ⟨c, hc, hsubproblem, hproblem, hiterate, hmultipliers, hradius⟩ :
      ∃ c : TrustRegionContinuation Extended,
        ofSetup logarithmSetup (InnerSolver.trustRegion {}) [] = .ok c
        ∧ c.subproblem = logarithmForm
        ∧ c.task.problem = logarithmForm.atLevel ⟨real 0.1, real 0.1⟩
        ∧ c.task.iterate = [real (-1), real 1] ∧ c.task.multipliers = [real 0]
        ∧ c.task.radius = real 1.0 :=
    ⟨_, rfl, rfl, rfl, rfl, rfl, rfl⟩
  have hlarge : (real 1e-8 : Extended) ≤ real 1.0 := real_le.mpr (by norm_num)
  have hlevel : (⟨real 0.1, real 0.1⟩ : Level Extended).parameter = real 0.1 := rfl
  obtain ⟨s, hs, hsradius, hrounds, hresidual, hoptimality⟩ :=
    start_logarithm hlevel c.task.radius c.task.penalty
  rw [← hproblem, ← hiterate, ← hmultipliers] at hs
  have hgoing : TrustRegion.GoesOn c.task.problem {} s := by
    constructor
    · have hfew : ¬logarithmForm.maxIterations < s.report.iterations := by
        change ¬1000 < s.rounds
        omega
      rw [hproblem]
      change logarithmForm.stop ⟨real 0.1, real 0.1⟩ s.report = false
      rw [SlackForm.stop, decide_eq_false hoptimality, decide_eq_false hfew]
      rfl
    · rw [hsradius, hradius]
      exact not_lt_of_le hlarge
  have hslack : 0 < c.subproblem.slackCount := by
    rw [hsubproblem]
    exact Nat.one_pos
  have hstep := ((built_of_ofSetup hc).shapedWith total_logarithmSetup).step_of_missing hslack hs
    hgoing (by rw [hresidual]; exact List.mem_singleton_self nan)
  have hends : ¬c.Continues := by
    rintro ⟨report, hreport, -⟩
    rw [hstep] at hreport
    cases hreport
  refine ⟨c, hc, total_logarithmSetup, rfl, hlarge, fun limit ↦ ?_⟩
  rw [run, runUntil, runFrom_of_not_continues hends, hstep]

end Logarithm

end Continuation

end LogBarrier
