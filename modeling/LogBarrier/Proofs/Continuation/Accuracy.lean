import LogBarrier.Proofs.Continuation.Runs
import LogBarrier.Terms.Problem

/-!
# Accuracy of a converged run

A run that converges has found both norms below the accuracy. The largest absolute value of a vector
ignores entries that are not numbers, so what has been found is this: every entry of the constraints
and of the gradient of the Lagrangian is below the accuracy or is not a number. Nothing excludes the
second case, and a run may converge where the gradient is missing altogether.
-/

namespace LogBarrier

open Extended

/-- The scalar is a number whose absolute value is below the bound, unless it is not a number. -/
def Extended.SmallOrMissing (ε : ℝ) (a : Extended) : Prop := a = nan ∨ ∃ r, a = real r ∧ |r| < ε

theorem Extended.smallOrMissing_real {ε r : ℝ} : (real r).SmallOrMissing ε ↔ |r| < ε := by
  constructor
  · rintro (h | ⟨t, h, ht⟩)
    · cases h
    · cases h
      exact ht
  · exact fun h ↦ .inr ⟨r, rfl, h⟩

theorem Extended.maxNum_abs_lt_iff {acc a : Extended} {ε : ℝ} (hacc : acc ≠ nan) :
    Scalar.maxNum acc (Scalar.abs a) < real ε ↔ acc < real ε ∧ a.SmallOrMissing ε := by
  cases a with
  | real r =>
    rw [smallOrMissing_real]
    cases acc with
    | real t => exact (max_lt_iff : max t |r| < ε ↔ t < ε ∧ |r| < ε)
    | posInf => exact ⟨False.elim, fun h ↦ h.1⟩
    | negInf => exact ⟨fun h ↦ ⟨trivial, h⟩, fun h ↦ h.2⟩
    | nan => contradiction
  | posInf | negInf =>
    have hlarge : Scalar.maxNum acc posInf = posInf := by
      cases acc with
      | nan => contradiction
      | _ => rfl
    change Scalar.maxNum acc posInf < real ε ↔ _
    rw [hlarge]
    exact ⟨False.elim, by rintro ⟨-, h | ⟨t, h, -⟩⟩ <;> cases h⟩
  | nan =>
    change Scalar.maxNum acc nan < real ε ↔ _
    rw [maxNum_nan_right]
    exact (and_iff_left (.inl rfl)).symm

/-- The norm of a vector is below a bound exactly if all entries are, except for those that are not
numbers. -/
theorem Vec.maxNorm_lt_iff {x : Vec Extended} {ε : ℝ} (hε : 0 < ε) :
    maxNorm x < real ε ↔ ∀ a ∈ x, a.SmallOrMissing ε := by
  have hfold : ∀ acc : Extended, acc ≠ nan →
      (x.foldl (fun acc a ↦ Scalar.maxNum acc (Scalar.abs a)) acc < real ε ↔
        acc < real ε ∧ ∀ a ∈ x, a.SmallOrMissing ε) := by
    induction x with
    | nil => simp
    | cons a x ih =>
      intro acc hacc
      rw [List.foldl_cons, ih _ (maxNum_ne_nan hacc), maxNum_abs_lt_iff hacc,
        List.forall_mem_cons, and_assoc]
  have hzero : (0 : Extended) ≠ nan := by
    rintro ⟨⟩
  rw [maxNorm, hfold 0 hzero]
  exact and_iff_right hε

namespace Continuation

variable {options : TrustRegionOptions Extended} {c c' : TrustRegionContinuation Extended}
  {report : Report Extended}

theorem describes_of_step (hsolver : c.solver = InnerSolver.trustRegion options)
    (h : c.step = (.ok report, c')) : c'.solvedLevel = some c.controls.level
      ∧ report.Describes (c.subproblem.atLevel c.controls.level) c'.iterate := by
  cases hsolved : (c.solvedWith options).1 with
  | error failure =>
    rw [step_of_solvedWith_error hsolver hsolved] at h
    cases h
  | ok inner =>
    rw [step_of_solvedWith_ok hsolver hsolved] at h
    cases h
    have hsolve : TrustRegion.solve c.task.problem options c.task.bounds c.task.iterate
        c.task.multipliers c.task.radius c.task.penalty c.task.limit =
          (.ok inner, (c.solvedWith options).2) := Prod.ext hsolved rfl
    obtain ⟨gradient, op, projector, y, w, sum, residual, hdescribes⟩ :=
      TrustRegion.describes_of_solve_eq_ok hsolve
    exact ⟨rfl, gradient, op, projector, y, w, sum, residual, hdescribes⟩

theorem norms_lt_of_isFinal (hfinal : report.isFinal = true)
    (hiterations : report.iterations ≤ Report.iterationLimit) :
    report.optimality < real 1e-8 ∧ report.violation < real 1e-8 := by
  rw [Report.isFinal, Bool.or_eq_true, Bool.and_eq_true, decide_eq_true_eq, decide_eq_true_eq,
    decide_eq_true_eq] at hfinal
  exact hfinal.resolve_right hiterations.not_gt

/-- **Accuracy.** A run that succeeds within the limit of iterations has been stopped by its norms.
Then every entry of the constraints, and every entry of the gradient of the Lagrangian at the level
that was solved last, is a number with absolute value below the accuracy or is not a number. -/
theorem converged_entries {setup : ContinuationSetup Extended} {journals : List (Journal Extended)}
    {limit : ℕ} (hc : ofSetup setup (InnerSolver.trustRegion options) journals = .ok c)
    (hrun : c.run limit = (.ok report, c')) (hiterations : report.iterations ≤ 1000) :
    ∃ level residual gradient op w sum, c'.solvedLevel = some level
      ∧ c.subproblem.constraints c'.iterate = .ok residual
      ∧ c.subproblem.gradient level c'.iterate = .ok gradient
      ∧ c.subproblem.jacobian c'.iterate = .ok op
      ∧ op.toMatrix.trMulVec report.multipliers = .ok w ∧ Vec.add gradient w = .ok sum
      ∧ (∀ a ∈ residual, a.SmallOrMissing 1e-8) ∧ ∀ a ∈ sum, a.SmallOrMissing 1e-8 := by
  obtain ⟨n, -, hstep, hfinal⟩ := run_eq_ok hrun
  have hsolver := (frame_after c n).1.trans (built_of_ofSetup hc).solver
  obtain ⟨hlevel, gradient, op, projector, y, w, sum, residual, hgradient, hop, -, -, -, hw, hsum,
    hoptimality, hresidual, hviolation⟩ := describes_of_step hsolver hstep
  obtain ⟨hsmall, hfeasible⟩ := norms_lt_of_isFinal hfinal hiterations
  rw [hoptimality, Vec.maxNorm_lt_iff (by norm_num)] at hsmall
  rw [hviolation, Vec.maxNorm_lt_iff (by norm_num)] at hfeasible
  rw [subproblem_after] at hgradient hop hresidual
  exact ⟨_, residual, gradient, op, w, sum, hlevel, hresidual, hgradient, hop, hw, hsum, hfeasible,
    hsmall⟩

/-! ## Runs over a line -/

section Line

/-- A run whose first state is final is over after one call without an iteration. It reports the
first state and leaves the first iterate. -/
theorem run_of_start {s : TrustRegion.State Extended}
    (hsolver : c.solver = InnerSolver.trustRegion options)
    (hdim : c.task.bounds.dim = c.task.problem.dim)
    (hstart : TrustRegion.start c.task.problem c.task.iterate c.task.multipliers c.task.radius
      c.task.penalty = .ok s) (hiterations : c.controls.iterations = 0)
    (hstop : c.task.problem.stop s.report = true) (hfinal : s.report.isFinal = true) :
    ∃ c', c.run 1 = (.ok s.report, c') ∧ c'.iterate = c.iterate
      ∧ c'.solvedLevel = some c.controls.level := by
  obtain ⟨houtcome, hiterate⟩ :=
    TrustRegion.solve_ends_of_start options (c.subproblem.maxIterations + 1) hdim
      hstart (.inl hstop)
  have haccumulate : c.controls.accumulate s.report = s.report := by
    rw [Controls.accumulate, hiterations, Nat.zero_add]
  have hstep := step_of_solvedWith_ok hsolver houtcome
  rw [haccumulate] at hstep
  have hends : ¬c.Continues := by
    rintro ⟨report, hreport, hnot⟩
    rw [hstep] at hreport
    cases hreport
    rw [hfinal] at hnot
    cases hnot
  exact ⟨_, (runFrom_of_not_continues hends 0 0).trans hstep, hiterate, rfl⟩

theorem stop_of_norms {report : Report Extended} {p : SlackForm Extended} {level : Level Extended}
    {x : Vec Extended} (hx : ∀ a ∈ x, a = nan ∨ a = 0) (hlevel : level.tolerance = real 0.1)
    (hoptimality : report.optimality = Vec.maxNorm x) (hviolation : report.violation = 0) :
    p.stop level report = true ∧ report.isFinal = true := by
  have hsmall {ε : ℝ} (hε : 0 < ε) : Vec.maxNorm x < real ε :=
    (Vec.maxNorm_lt_iff hε).mpr fun a ha ↦
      (hx a ha).imp_right fun h ↦ ⟨0, h, by rwa [abs_zero]⟩
  have hfeasible {ε : ℝ} (hε : 0 < ε) : (0 : Extended) < real ε := hε
  rw [SlackForm.stop, Report.isFinal, hlevel, hoptimality, hviolation]
  constructor
  · rw [decide_eq_true (hsmall (by norm_num)), decide_eq_true (hfeasible (by norm_num))]
    rfl
  · have haccuracy : (Report.accuracy : Extended) = real 1e-8 := rfl
    rw [haccuracy, decide_eq_true (hsmall (by norm_num)), decide_eq_true (hfeasible (by norm_num))]
    rfl

/-- The first state of the next solve has no constraints, and its gradient of the Lagrangian has the
given entries. -/
structure StartsAt (c : TrustRegionContinuation Extended) (s : TrustRegion.State Extended)
    (sum : Vec Extended) : Prop where
  start : TrustRegion.start c.task.problem c.task.iterate c.task.multipliers c.task.radius
    c.task.penalty = .ok s
  violation : s.report.violation = 0
  sum : ∃ w, s.point.jacobian.trMulVec s.point.multipliers = .ok w
    ∧ Vec.add s.point.gradient w = .ok sum

theorem run_of_startsAt {setup : ContinuationSetup Extended} {s : TrustRegion.State Extended}
    {sum : Vec Extended} (hc : ofSetup setup (InnerSolver.trustRegion options) [] = .ok c)
    (hlevel : c.controls.level.tolerance = real 0.1) (hiterations : c.controls.iterations = 0)
    (hs : c.StartsAt s sum) (hsum : ∀ a ∈ sum, a = nan ∨ a = 0) :
    ∃ report c' level gradient op w, c.run 1 = (.ok report, c') ∧ report.iterations = 0
      ∧ c'.solvedLevel = some level ∧ c.subproblem.gradient level c'.iterate = .ok gradient
      ∧ c.subproblem.jacobian c'.iterate = .ok op
      ∧ op.toMatrix.trMulVec report.multipliers = .ok w ∧ Vec.add gradient w = .ok sum := by
  have hbuilt := built_of_ofSetup hc
  have hdim : c.task.bounds.dim = c.task.problem.dim := by
    rw [task, hbuilt.bounds]
    exact dim_stepBox c.subproblem
  obtain ⟨hz, hfresh, hrounds⟩ := TrustRegion.start_eq_ok hs.start
  obtain ⟨w, hw, hadd⟩ := hs.sum
  obtain ⟨op, hop, hjacobian⟩ := hfresh.jacobian
  have hoptimality : s.report.optimality = Vec.maxNorm sum := by
    obtain ⟨w', sum', hw', hadd', hoptimality⟩ := hfresh.optimality
    cases hw.symm.trans hw'
    cases hadd.symm.trans hadd'
    exact hoptimality
  obtain ⟨hstop, hfinal⟩ := stop_of_norms (p := c.subproblem) hsum hlevel hoptimality hs.violation
  obtain ⟨c', hrun, hiterate, hsolved⟩ :=
    run_of_start hbuilt.solver hdim hs.start hiterations hstop hfinal
  have hw' : op.toMatrix.trMulVec s.report.multipliers = .ok w := hjacobian ▸ hw
  have hgradient := hfresh.gradient
  rw [hz] at hop hgradient
  refine ⟨_, c', _, _, op, w, hrun, hrounds, hsolved, ?_, ?_, hw', hadd⟩
  · rw [hiterate]
    exact hgradient
  · rw [hiterate]
    exact hop

/-- The square root, from a point where it is not defined. -/
noncomputable def rootSetup : ContinuationSetup Extended where
  objective := TermSum.objective (Box.free 1 Nat.one_pos) [.elementary 1 .sqrt 0] [] []
  initial := [-1]
  multipliers := some []

noncomputable def squareSetup : ContinuationSetup Extended where
  objective := TermSum.objective (Box.free 1 Nat.one_pos) [.monomial 1 [2]] [] []
  initial := [0]
  multipliers := some []

theorem startsAt_root : ∃ c : TrustRegionContinuation Extended,
    ofSetup rootSetup (InnerSolver.trustRegion {}) [] = .ok c
    ∧ c.controls.level.tolerance = real 0.1 ∧ c.controls.iterations = 0
    ∧ ∃ s, c.StartsAt s [nan] := by
  have hroot : Scalar.sqrt (-1 : Extended) = nan := if_pos (by norm_num)
  have hentry : (0 + 1 * Elementary.sqrt.slope (-1) + 0 : Extended) = nan := by
    rw [Elementary.slope, hroot]
    rfl
  refine ⟨_, rfl, rfl, rfl, _, rfl, rfl, _, rfl, ?_⟩
  exact (congrArg (fun a ↦ Except.ok [a]) hentry : _)

theorem startsAt_square : ∃ c : TrustRegionContinuation Extended,
    ofSetup squareSetup (InnerSolver.trustRegion {}) [] = .ok c
    ∧ c.controls.level.tolerance = real 0.1 ∧ c.controls.iterations = 0
    ∧ ∃ s, c.StartsAt s [0] := by
  have hentry : (0 + 1 * (2 : ℕ) * 0 + 0 : Extended) = 0 := by
    change real _ = real _
    norm_num
  refine ⟨_, rfl, rfl, rfl, _, rfl, rfl, _, rfl, ?_⟩
  exact (congrArg (fun a ↦ Except.ok [a]) hentry : _)

/-- **Convergence without a gradient.** At minus one the square root has no gradient, and yet the
run converges there, after one call and without an iteration. -/
theorem converges_without_gradient :
    ∃ (c c' : TrustRegionContinuation Extended) (report : Report Extended)
      (level : Level Extended) (gradient : Vec Extended) (op : Operator Extended)
      (w : Vec Extended),
      ofSetup rootSetup (InnerSolver.trustRegion {}) [] = .ok c ∧ c.run 1 = (.ok report, c')
      ∧ report.iterations = 0 ∧ c'.solvedLevel = some level
      ∧ c.subproblem.gradient level c'.iterate = .ok gradient
      ∧ c.subproblem.jacobian c'.iterate = .ok op
      ∧ op.toMatrix.trMulVec report.multipliers = .ok w ∧ Vec.add gradient w = .ok [nan] := by
  obtain ⟨c, hc, hlevel, hiterations, s, hs⟩ := startsAt_root
  obtain ⟨report, c', level, gradient, op, w, hrun⟩ := run_of_startsAt hc hlevel hiterations hs
    fun a ha ↦ .inl (List.mem_singleton.mp ha)
  exact ⟨c, c', report, level, gradient, op, w, hc, hrun⟩

/-- At its minimum the run of the square converges, and the entry of the gradient is found to be
small or missing. -/
theorem square_converges : ∃ (c c' : TrustRegionContinuation Extended) (report : Report Extended),
    ofSetup squareSetup (InnerSolver.trustRegion {}) [] = .ok c ∧ c.run 1 = (.ok report, c')
    ∧ report.iterations ≤ 1000
    ∧ ∃ level residual gradient op w sum, c'.solvedLevel = some level
      ∧ c.subproblem.constraints c'.iterate = .ok residual
      ∧ c.subproblem.gradient level c'.iterate = .ok gradient
      ∧ c.subproblem.jacobian c'.iterate = .ok op
      ∧ op.toMatrix.trMulVec report.multipliers = .ok w ∧ Vec.add gradient w = .ok sum
      ∧ (∀ a ∈ residual, a.SmallOrMissing 1e-8) ∧ ∀ a ∈ sum, a.SmallOrMissing 1e-8 := by
  obtain ⟨c, hc, hlevel, hiterations, s, hs⟩ := startsAt_square
  obtain ⟨report, c', -, -, -, -, hrun, hzero, -⟩ := run_of_startsAt hc hlevel hiterations hs
    fun a ha ↦ .inr (List.mem_singleton.mp ha)
  have hle : report.iterations ≤ 1000 := by
    rw [hzero]
    exact Nat.zero_le 1000
  exact ⟨c, c', report, hc, hrun, hle, converged_entries hc hrun hle⟩

end Line

end Continuation

end LogBarrier
