import LogBarrier.Gallery.Quadratic
import LogBarrier.Proofs.Barrier.Positive
import LogBarrier.Proofs.Continuation.Steps

/-!
# Slacks during a continuation

Every inner solve hands over an interior iterate, whether it succeeds or fails. So all the slacks
stay positive forever, and no solve is ever ended by the logarithm of a slack.
-/

namespace LogBarrier

open Extended

/-- All data of the setup consist of real numbers. The bounds of the variables may be infinite. -/
structure ContinuationSetup.RealValued (setup : ContinuationSetup Extended) : Prop where
  objective : setup.objective.RealValued
  inequality : setup.inequality.RealValued
  equality : setup.equality.RealValued
  affineInequality : ∀ m b, setup.affineInequality = some (m, b) → m.IsReal ∧ Vec.IsReal b
  affineEquality : ∀ m b, setup.affineEquality = some (m, b) → m.IsReal ∧ Vec.IsReal b
  initial : Vec.IsReal setup.initial
  multipliers : ∀ v, setup.multipliers = some v → Vec.IsReal v
  parameter : setup.options.initialParameter.IsReal

abbrev TrustRegionContinuation (α : Type) [Scalar α] :=
  Continuation α (List (Journal α)) SolverError

/-! ## Building -/

theorem AffineSystem.isReal_of_ofParts? {n : ℕ}
    {parts : Option (DenseMatrix Extended × Vec Extended)} {system : AffineSystem Extended}
    (hparts : ∀ m b, parts = some (m, b) → m.IsReal ∧ Vec.IsReal b)
    (h : ofParts? n parts = .ok system) : system.IsReal := by
  obtain _ | ⟨m, b⟩ := parts
  · cases h
    exact ⟨DenseMatrix.isReal_zeros _ _, Vec.isReal_nil⟩
  · rw [ofParts?, ofParts] at h
    split_ifs at h
    cases h
    obtain ⟨hm, hb⟩ := hparts m b rfl
    exact ⟨hm, hb⟩

theorem SlackForm.length_initial {α : Type} [Scalar α] {p : SlackForm α}
    (h : p.checkParts = .ok ()) : p.initial.length = p.variableCount := by
  obtain ⟨_, hcheck, -⟩ := bind_eq_ok_iff.mp h
  exact (check_eq_ok hcheck).symm

theorem SlackForm.interior_start {p : SlackForm Extended} (hp : p.RealValued)
    (h : p.checkParts = .ok ()) : p.Interior p.start := by
  have hlength := length_initial h
  have hdrop : p.start.drop p.variableCount = List.replicate p.slackCount 1 :=
    List.drop_left' hlength
  constructor
  · exact Vec.isReal_append.mpr ⟨hp.initial, Vec.IsReal.replicate isReal_one _⟩
  · rw [start, List.length_append, List.length_replicate, hlength, dim]
  · rw [hdrop]
    intro a ha
    rw [List.eq_of_mem_replicate ha]
    exact real_lt.mpr one_pos

namespace Continuation

variable {α σ ε : Type} [Scalar α] {setup : ContinuationSetup α} {solver : InnerSolver α σ ε}
  {state : σ} {c : Continuation α σ ε}

structure Built (setup : ContinuationSetup α) (solver : InnerSolver α σ ε)
    (c : Continuation α σ ε) : Prop where
  checked : c.subproblem.checkParts = .ok ()
  objective : c.subproblem.objective = setup.objective
  inequality : c.subproblem.inequality = setup.inequality
  equality : c.subproblem.equality = setup.equality
  affineInequality : AffineSystem.ofParts? setup.objective.domain.dim setup.affineInequality
    = .ok c.subproblem.affineInequality
  affineEquality : AffineSystem.ofParts? setup.objective.domain.dim setup.affineEquality
    = .ok c.subproblem.affineEquality
  initial : c.subproblem.initial = setup.initial
  maxIterations : c.subproblem.maxIterations = setup.options.maxInnerIterations
  solver : c.solver = solver
  options : c.options = setup.options
  bounds : c.bounds = stepBox c.subproblem
  iterate : c.iterate = c.subproblem.start
  parameter : c.controls.level.parameter = setup.options.initialParameter
  tolerance : c.controls.level.tolerance = setup.options.initialTolerance
  radius : c.controls.radius = setup.options.initialRadius
  iterations : c.controls.iterations = 0
  multipliers : setup.multipliers = some c.controls.multipliers
  length_multipliers : c.controls.multipliers.length = c.subproblem.constraintCount

theorem ofSetup_eq_ok_iff : ofSetup setup solver state = .ok c ↔
    ∃ v affineInequality affineEquality, setup.multipliers = some v
      ∧ AffineSystem.ofParts? setup.objective.domain.dim setup.affineInequality
        = .ok affineInequality
      ∧ AffineSystem.ofParts? setup.objective.domain.dim setup.affineEquality = .ok affineEquality
      ∧ (setup.form affineInequality affineEquality).checkParts = .ok ()
      ∧ (setup.form affineInequality affineEquality).constraintCount = v.length
      ∧ c = setup.begun solver state (setup.form affineInequality affineEquality) v := by
  rw [ofSetup]
  constructor
  · intro h
    split at h
    next v hv =>
      obtain ⟨affineInequality, hinequality, h⟩ := bind_eq_ok_iff.mp h
      obtain ⟨affineEquality, hequality, h⟩ := bind_eq_ok_iff.mp h
      obtain ⟨p, hchecked, h⟩ := bind_eq_ok_iff.mp h
      obtain ⟨_, hparts, hp⟩ := bind_eq_ok_iff.mp hchecked
      cases hp
      obtain ⟨_, hlength, h⟩ := bind_eq_ok_iff.mp h
      cases h
      exact ⟨v, affineInequality, affineEquality, hv, hinequality, hequality, hparts,
        check_eq_ok hlength, rfl⟩
    next => cases h
  · rintro ⟨v, affineInequality, affineEquality, hv, hinequality, hequality, hparts, hlength, rfl⟩
    rw [hv]
    dsimp only
    rw [hinequality, ok_bind, hequality, ok_bind]
    rw [SlackForm.checked, hparts]
    change Inconsistency.check _ (setup.form affineInequality affineEquality).constraintCount _
      >>= _ = _
    rw [hlength, Inconsistency.check, if_pos rfl]
    rfl

theorem built_of_ofSetup (h : ofSetup setup solver state = .ok c) : Built setup solver c := by
  obtain ⟨v, affineInequality, affineEquality, hv, hinequality, hequality, hparts, hlength, rfl⟩ :=
    ofSetup_eq_ok_iff.mp h
  exact {
    checked := hparts
    objective := rfl
    inequality := rfl
    equality := rfl
    affineInequality := hinequality
    affineEquality := hequality
    initial := rfl
    maxIterations := rfl
    solver := rfl
    options := rfl
    bounds := rfl
    iterate := rfl
    parameter := rfl
    tolerance := rfl
    radius := rfl
    iterations := rfl
    multipliers := hv
    length_multipliers := hlength.symm }

/-- The continuation after some calls, whatever their results are. -/
def after (c : Continuation α σ ε) : ℕ → Continuation α σ ε
  | 0 => c
  | n + 1 => (c.after n).step.2

/-! ## The invariant -/

/-- What holds of a continuation over the real numbers before and after every call. -/
structure Sound (options : TrustRegionOptions Extended) (c : TrustRegionContinuation Extended) :
    Prop where
  shares : options.SharesBounds
  solver : c.solver = InnerSolver.trustRegion options
  bounds : c.bounds = stepBox c.subproblem
  subproblem : c.subproblem.RealValued
  parameter : c.controls.level.parameter.IsReal
  multipliers : Vec.IsReal c.controls.multipliers
  interior : c.subproblem.Interior c.iterate

variable {setup : ContinuationSetup Extended} {options : TrustRegionOptions Extended}
  {c : TrustRegionContinuation Extended}

theorem Built.realValued {solver : InnerSolver Extended (List (Journal Extended)) SolverError}
    (hsetup : setup.RealValued) (h : Built setup solver c) : c.subproblem.RealValued where
  objective := h.objective ▸ hsetup.objective
  inequality := h.inequality ▸ hsetup.inequality
  equality := h.equality ▸ hsetup.equality
  affineInequality := AffineSystem.isReal_of_ofParts? hsetup.affineInequality h.affineInequality
  affineEquality := AffineSystem.isReal_of_ofParts? hsetup.affineEquality h.affineEquality
  initial := h.initial ▸ hsetup.initial

theorem Built.soundWith (hshare : options.SharesBounds) (hsetup : setup.RealValued)
    (h : Built setup (InnerSolver.trustRegion options) c) : c.Sound options where
  shares := hshare
  solver := h.solver
  bounds := h.bounds
  subproblem := h.realValued hsetup
  parameter := h.parameter ▸ hsetup.parameter
  multipliers := hsetup.multipliers _ h.multipliers
  interior := h.iterate ▸ SlackForm.interior_start (h.realValued hsetup) h.checked

theorem Built.sound (hsetup : setup.RealValued) (h : Built setup (InnerSolver.trustRegion {}) c) :
    c.Sound {} :=
  h.soundWith TrustRegionOptions.sharesBounds_default hsetup

/-! ## One call -/

section Solved

variable {c : TrustRegionContinuation α}

/-- The solve that the next call does with the default options. -/
abbrev solved (c : TrustRegionContinuation α) :
    Except (Failure SolverError) (Report α) × Journal α :=
  c.solvedWith {}

theorem step_of_solved_ok {report : Report α}
    (hsolver : c.solver = InnerSolver.trustRegion {}) (h : c.solved.1 = .ok report) :
    c.step = (.ok (c.controls.accumulate report),
      { c with
        solverState := c.solved.2 :: c.solverState
        iterate := c.solved.2.iterate
        solvedLevel := some c.controls.level
        controls := c.controls.next report c.options.initialRadius }) :=
  step_of_solvedWith_ok hsolver h

theorem step_of_solved_error {failure : Failure SolverError}
    (hsolver : c.solver = InnerSolver.trustRegion {}) (h : c.solved.1 = .error failure) :
    c.step = (.error failure,
      { c with solverState := c.solved.2 :: c.solverState, iterate := c.solved.2.iterate }) :=
  step_of_solvedWith_error hsolver h

end Solved

theorem Sound.start {s₀ : TrustRegion.State Extended} {radius penalty : Extended}
    (hc : c.Sound options)
    (h : TrustRegion.start c.task.problem c.iterate c.controls.multipliers radius penalty
      = .ok s₀) :
    s₀.point.IsReal ∧ c.subproblem.Interior s₀.point.iterate := by
  constructor
  · exact TrustRegion.isReal_start (SlackForm.realValued_atLevel hc.subproblem hc.parameter)
      hc.interior.isReal hc.multipliers h
  · rw [(TrustRegion.start_eq_ok h).1]
    exact hc.interior

/-- Whatever the next solve comes to, it hands over an interior iterate. -/
theorem Sound.solved (hc : c.Sound options) :
    c.subproblem.Interior (c.solvedWith options).2.iterate ∧ NoSlackFault (c.solvedWith options).1
      ∧ ∀ report, (c.solvedWith options).1 = .ok report → Vec.IsReal report.multipliers := by
  have hconcludes := TrustRegion.solve_concludes c.task.problem options c.task.bounds c.task.iterate
    c.task.multipliers c.task.radius c.task.penalty c.task.limit
  rw [← InnerTask.byTrustRegion, ← solvedWith] at hconcludes
  obtain ⟨hrefused, hz⟩ | ⟨failure, hstart, hfailed, hz⟩ | ⟨s₀, hs₀, hconclusion⟩ := hconcludes
  · rw [hrefused, hz]
    exact ⟨hc.interior, nofun, nofun⟩
  · rw [hfailed, hz]
    have hevaluate : NoSlackFault (Point.evaluate c.task.problem c.task.iterate
        c.task.multipliers) :=
      SlackForm.noSlackFault_evaluate hc.subproblem hc.parameter hc.interior hc.multipliers
    rw [TrustRegion.start_eq_error hstart] at hevaluate
    exact ⟨hc.interior, hevaluate.error, nofun⟩
  · -- The search starts at an interior iterate, and none of its conclusions leaves the interior.
    obtain ⟨hreal, hinterior⟩ := hc.start hs₀
    rw [task, hc.bounds] at hconclusion
    exact hconclusion.interior hc.subproblem hc.parameter hc.shares hreal hinterior

/-- A call keeps a continuation sound, and it does not end in the fault of a slack. -/
theorem Sound.step (hc : c.Sound options) :
    c.step.2.Sound options ∧ NoSlackFault c.step.1 := by
  obtain ⟨hinterior, hfault, hmultipliers⟩ := hc.solved
  cases h : (c.solvedWith options).1 with
  | error failure =>
    rw [step_of_solvedWith_error hc.solver h]
    rw [h] at hfault
    exact ⟨⟨hc.shares, hc.solver, hc.bounds, hc.subproblem, hc.parameter, hc.multipliers,
      hinterior⟩, hfault.error⟩
  | ok report =>
    rw [step_of_solvedWith_ok hc.solver h]
    exact ⟨⟨hc.shares, hc.solver, hc.bounds, hc.subproblem,
      hc.parameter.mul (isReal_ofScientific _ _ _), hmultipliers report h, hinterior⟩, nofun⟩

theorem Sound.after (hc : c.Sound options) (n : ℕ) : (c.after n).Sound options := by
  induction n with
  | zero => exact hc
  | succ n ih => exact ih.step.1

/-! ## All calls -/

/-- The next solve makes the trial in the state. -/
def Tries (c : TrustRegionContinuation α) (s : TrustRegion.State α) (trial : Trial α) : Prop :=
  TrustRegion.Tries c.task.problem {} c.task.bounds c.task.iterate c.task.multipliers c.task.radius
    c.task.penalty s trial

/-- Each trial of the next solve leaves the slacks the part that is protected. -/
theorem Sound.keepsPart (hc : c.Sound {}) {s : TrustRegion.State Extended} {trial : Trial Extended}
    (h : c.Tries s trial) :
    KeepsPart (s.point.iterate.drop c.subproblem.variableCount)
      (trial.next.drop c.subproblem.variableCount) := by
  obtain ⟨s₀, trials, hs₀, path, -, proposed⟩ := TrustRegion.tries_iff.mp h
  obtain ⟨hreal, hinterior⟩ := hc.start hs₀
  rw [task, hc.bounds] at path proposed
  exact (TrustRegion.interior_trial hc.shares
    (path.isReal_point hc.subproblem hc.parameter hc.shares hreal)
    (path.interior hc.subproblem hc.parameter hc.shares hreal hinterior) proposed).2

/-- **Positive slacks.** However often a continuation is called, and whatever the calls answer, all
slacks stay positive, each trial leaves every slack the part that is protected, and no call ends in
the fault of a slack. More generally, every trial step of the trust region method is within its
bounds, for every problem and for all bounds that admit the origin. -/
theorem slacks_stay_positive :
    (∀ (setup : ContinuationSetup Extended) (journals : List (Journal Extended))
      (c : TrustRegionContinuation Extended), setup.RealValued →
      ofSetup setup (InnerSolver.trustRegion {}) journals = .ok c → ∀ n,
        (∀ a ∈ (c.after n).slack, 0 < a)
        ∧ (c.after n).step.1 ≠ .error (.fault .slackNotPositive)
        ∧ ∀ s trial, (c.after n).Tries s trial →
          KeepsPart (s.point.iterate.drop (c.after n).subproblem.variableCount)
            (trial.next.drop (c.after n).subproblem.variableCount))
    ∧ ∀ (problem : InnerProblem Extended) (bounds : StepBox Extended) (z v : Vec Extended)
      (radius penalty : Extended), problem.RealValued → bounds.AdmitsZero → Vec.IsReal z →
      Vec.IsReal v → ∀ s trial,
        TrustRegion.Tries problem {} bounds z v radius penalty s trial →
          bounds.Contains trial.step := by
  constructor
  · intro setup journals c hsetup hc n
    have hsound := ((built_of_ofSetup hc).sound hsetup).after n
    exact ⟨hsound.interior.positive, fun h ↦ hsound.step.2 _ h rfl,
      fun s trial h ↦ hsound.keepsPart h⟩
  · intro problem bounds z v radius penalty hproblem hbounds hz hv s trial htry
    obtain ⟨s₀, trials, hs₀, path, -, proposed⟩ := TrustRegion.tries_iff.mp htry
    have hreal := TrustRegion.isReal_start hproblem hz hv hs₀
    exact (path.contains_step hproblem TrustRegionOptions.sharesBounds_default hbounds hreal
      proposed).2

/-! ## The parabola -/

/-- The parabola of the gallery, from the middle of its domain. -/
noncomputable def parabolaSetup : ContinuationSetup Extended where
  objective := Gallery.parabola.objective
  initial := [0.5]
  multipliers := some [1, 1]

theorem realValued_parabolaSetup : parabolaSetup.RealValued where
  objective := {
    value := fun _ hx ↦ (Vec.yields_entry hx 0).bind fun a ha ↦
      have hb := ha.sub (isReal_ofScientific 20 true 1)
      Ensures.pure (hb.mul hb)
    gradient := fun _ hx ↦ (Vec.yields_entry hx 0).bind fun a ha ↦ Ensures.pure
      (Vec.isReal_cons.mpr ⟨(isReal_ofScientific 20 true 1).mul
        (ha.sub (isReal_ofScientific 20 true 1)), Vec.isReal_nil⟩)
    hessian := fun _ _ _ _ _ _ ↦ Ensures.ok (.dense (DenseMatrix.isReal_ofRows fun r hr ↦ by
      rw [List.mem_singleton.mp hr]
      exact Vec.isReal_cons.mpr ⟨isReal_ofScientific 20 true 1, Vec.isReal_nil⟩)) }
  inequality := Constraints.realValued_none
  equality := Constraints.realValued_none
  affineInequality _ _ h := nomatch h
  affineEquality _ _ h := nomatch h
  initial := Vec.isReal_cons.mpr ⟨isReal_ofScientific 5 true 1, Vec.isReal_nil⟩
  multipliers _ h := by
    cases h
    exact Vec.IsReal.replicate isReal_one 2
  parameter := isReal_ofScientific 1 true 1

/-- The parabola can be solved, and its two slacks stay positive. -/
theorem parabola_slacks_stay_positive :
    ∃ c : TrustRegionContinuation Extended,
      ofSetup parabolaSetup (InnerSolver.trustRegion {}) [] = .ok c ∧ parabolaSetup.RealValued
      ∧ ∀ n, ∀ a ∈ (c.after n).slack, 0 < a := by
  refine ⟨_, rfl, realValued_parabolaSetup, fun n ↦ ?_⟩
  exact (slacks_stay_positive.1 parabolaSetup [] _ realValued_parabolaSetup rfl n).1

end Continuation

end LogBarrier
