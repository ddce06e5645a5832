import LogBarrier.Proofs.Continuation.Runs
import Mathlib.Analysis.SpecificLimits.Basic

/-!
# Termination

An inner solve ends because its criterion counts the rounds. A run ends because the calls add up
their rounds, up to a limit, but a call need not do any round at all, so the number of rounds alone
does not bound the number of calls.

## Calls without a round

The radius with which a call starts is never below the least one, so a call can only do no round if
its criterion holds at once, and then both norms are below the tolerance of its level. The tolerance
decays. Once it has reached the accuracy of the final test, such a call is the last one, and every
other call does a round.
-/

namespace LogBarrier

open Extended

namespace TrustRegion

variable {α : Type} [Scalar α] {problem : InnerProblem α} {options : TrustRegionOptions α}
  {bounds : StepBox α} {s s₀ : State α} {trials : List (Trial α)}

/-- A path is at most one round longer than the number of rounds from which a round can start. -/
theorem Path.length_le {limit : ℕ} (path : Path problem options bounds s₀ trials s)
    (h₀ : s₀.rounds = 0) (hlimit : ∀ s, GoesOn problem options s → s.rounds ≤ limit) :
    trials.length ≤ limit + 1 := by
  cases path with
  | start => exact Nat.zero_le _
  | accepted path going =>
    have hrounds := path.rounds
    have hle := hlimit _ going
    rw [List.length_cons]
    omega
  | rejected path going =>
    have hrounds := path.rounds
    have hle := hlimit _ going
    rw [List.length_cons]
    omega

end TrustRegion

theorem SlackForm.rounds_le_of_goesOn {α : Type} [Scalar α] {p : SlackForm α} {level : Level α}
    {options : TrustRegionOptions α} {s : TrustRegion.State α}
    (h : TrustRegion.GoesOn (p.atLevel level) options s) : s.rounds ≤ p.maxIterations := by
  have hstop : p.stop level s.report = false := h.1
  rw [stop, Bool.or_eq_false_iff, decide_eq_false_iff_not, Nat.not_lt] at hstop
  exact hstop.2

namespace Continuation

/-! ## One call -/

section Call

variable {α : Type} [Scalar α] {options : TrustRegionOptions α} {c : TrustRegionContinuation α}
  {trials : List (Trial α)}

/-- The next solve does rounds with the given trials, the last trial being the head of the list. -/
def Performs (options : TrustRegionOptions α) (c : TrustRegionContinuation α)
    (trials : List (Trial α)) : Prop :=
  ∃ s₀ s, TrustRegion.start c.task.problem c.task.iterate c.task.multipliers c.task.radius
      c.task.penalty = .ok s₀
    ∧ TrustRegion.Path c.task.problem options c.task.bounds s₀ trials s

theorem Performs.length_le (h : c.Performs options trials) :
    trials.length ≤ c.subproblem.maxIterations + 1 := by
  obtain ⟨s₀, s, hs₀, path⟩ := h
  exact path.length_le (TrustRegion.start_eq_ok hs₀).2.2 fun _ ↦ SlackForm.rounds_le_of_goesOn

/-- The number of rounds that a solve is allowed is never reached. -/
theorem solvedWith_ne_unfinished : (c.solvedWith options).1 ≠ .error .unfinished := by
  intro h
  obtain ⟨s₀, trials, s, hs₀, path, hlength⟩ := TrustRegion.exists_path_of_solve_unfinished h
  have hle := Performs.length_le ⟨s₀, s, hs₀, path⟩
  have hlimit : c.task.limit = c.subproblem.maxIterations + 2 := rfl
  omega

theorem step_ne_unfinished (hsolver : c.solver = InnerSolver.trustRegion options) :
    c.step.1 ≠ .error .unfinished := by
  cases h : (c.solvedWith options).1 with
  | ok report =>
    rw [step_of_solvedWith_ok hsolver h]
    exact nofun
  | error failure =>
    rw [step_of_solvedWith_error hsolver h]
    rintro ⟨⟩
    exact solvedWith_ne_unfinished h

theorem exists_state_of_step_ok {report : Report α}
    (hsolver : c.solver = InnerSolver.trustRegion options) (h : c.step.1 = .ok report) :
    ∃ s₀ trials s, TrustRegion.start c.task.problem c.task.iterate c.task.multipliers c.task.radius
        c.task.penalty = .ok s₀
      ∧ TrustRegion.Path c.task.problem options c.task.bounds s₀ trials s
      ∧ report = c.controls.accumulate s.report ∧ s.rounds = trials.length
      ∧ c.step.2.controls = c.controls.next s.report c.options.initialRadius
      ∧ (c.subproblem.stop c.controls.level s.report = true ∨ s.radius < options.minRadius) := by
  cases hsolved : (c.solvedWith options).1 with
  | error failure =>
    rw [step_of_solvedWith_error hsolver hsolved] at h
    cases h
  | ok inner =>
    have hstep := step_of_solvedWith_ok hsolver hsolved
    rw [hstep] at h ⊢
    cases h
    obtain ⟨s₀, trials, s, hs₀, path, rfl, -, hends⟩ :=
      TrustRegion.solve_eq_ok (Prod.ext hsolved rfl)
    have hrounds := path.rounds
    rw [(TrustRegion.start_eq_ok hs₀).2.2, Nat.zero_add] at hrounds
    exact ⟨s₀, trials, s, hs₀, path, rfl, hrounds, rfl, hends⟩

/-- A report counts the rounds of its own call, of which there are not too many. -/
theorem iterations_le_of_step_ok {report : Report α}
    (hsolver : c.solver = InnerSolver.trustRegion options) (h : c.step.1 = .ok report) :
    report.iterations = c.step.2.controls.iterations
      ∧ report.iterations ≤ c.controls.iterations + c.subproblem.maxIterations + 1 := by
  obtain ⟨s₀, trials, s, hs₀, path, rfl, hrounds, hcontrols, -⟩ := exists_state_of_step_ok hsolver h
  have hle := Performs.length_le ⟨s₀, s, hs₀, path⟩
  have hcount : (c.controls.accumulate s.report).iterations = c.controls.iterations + s.rounds :=
    rfl
  refine ⟨by rw [hcontrols]; rfl, ?_⟩
  omega

theorem iterations_le_of_continues (hsolver : c.solver = InnerSolver.trustRegion options)
    (h : c.Continues) : c.step.2.controls.iterations ≤ 1000 := by
  obtain ⟨report, hreport, hfinal⟩ := h
  rw [Report.isFinal, Bool.or_eq_false_iff, decide_eq_false_iff_not, Nat.not_lt] at hfinal
  exact (iterations_le_of_step_ok hsolver hreport).1 ▸ hfinal.2

end Call

/-! ## Successive calls -/

section Calls

variable {options : TrustRegionOptions Extended} {c : TrustRegionContinuation Extended} {τ : ℝ}
  {n K : ℕ}

theorem minRadius_le_radius (hoptions : options.minRadius ≤ c.options.initialRadius)
    (hc : options.minRadius ≤ c.controls.radius) (n : ℕ) :
    options.minRadius ≤ (c.after n).controls.radius := by
  induction n with
  | zero => exact hc
  | succ n ih =>
    have hradius : (c.after n).step.2.controls.radius = (c.after n).controls.radius
        ∨ ∃ a, (c.after n).step.2.controls.radius = Scalar.maxNum c.options.initialRadius a := by
      rw [← (frame_after c n).2.1, step]
      dsimp only
      split
      · exact .inl rfl
      · exact .inr ⟨_, rfl⟩
    rw [after]
    obtain hradius | ⟨a, hradius⟩ := hradius
    · rwa [hradius]
    · rw [hradius]
      exact le_maxNum_of_le hoptions

theorem tolerance_after (hsolver : c.solver = InnerSolver.trustRegion options)
    (hτ : c.controls.level.tolerance = real τ) (h : ∀ m < n, (c.after m).Continues) :
    (c.after n).controls.level.tolerance = real (τ * 0.2 ^ n) := by
  induction n with
  | zero => rw [pow_zero, mul_one]; exact hτ
  | succ n ih =>
    obtain ⟨report, hreport, -⟩ := h n (Nat.lt_succ_self n)
    obtain ⟨_, _, _, -, -, -, -, hcontrols, -⟩ :=
      exists_state_of_step_ok ((frame_after c n).1.trans hsolver) hreport
    rw [after, hcontrols, Controls.next, Level.decay, ih fun m hm ↦ h m (Nat.lt_succ_of_lt hm),
      pow_succ, ← mul_assoc]
    rfl

/-- **A call that goes on does a round**, once the tolerance has reached the accuracy. -/
theorem iterations_lt_of_continues (hsolver : c.solver = InnerSolver.trustRegion options)
    (hradius : options.minRadius ≤ c.controls.radius)
    (hτ : c.controls.level.tolerance = real τ) (hsmall : τ ≤ 1e-8) (h : c.Continues) :
    c.controls.iterations < c.step.2.controls.iterations := by
  obtain ⟨report, hreport, hfinal⟩ := h
  obtain ⟨s₀, trials, s, hs₀, path, rfl, hrounds, hcontrols, hends⟩ :=
    exists_state_of_step_ok hsolver hreport
  have hcount : c.step.2.controls.iterations = c.controls.iterations + trials.length := by
    rw [hcontrols, ← hrounds]
    rfl
  obtain _ | ⟨trial, trials⟩ := trials
  · -- Without a round the last state is the first one, and its radius does not end the call.
    cases path
    rw [TrustRegion.radius_of_start hs₀] at hends
    have hstop := hends.resolve_right (not_lt_of_le hradius)
    rw [SlackForm.stop, Bool.or_eq_true, Bool.and_eq_true, decide_eq_true_eq, decide_eq_true_eq,
      decide_eq_true_eq, hτ] at hstop
    have hnorms := hstop.resolve_right fun hlt ↦ by
      have hzero : s₀.report.iterations = 0 := hrounds
      omega
    have haccuracy : real τ ≤ (Report.accuracy : Extended) := hsmall
    rw [Report.isFinal, Bool.or_eq_false_iff, Bool.and_eq_false_iff, decide_eq_false_iff_not,
      decide_eq_false_iff_not] at hfinal
    obtain hoptimality | hviolation := hfinal.1
    · exact absurd (lt_of_lt_of_le hnorms.1 haccuracy) hoptimality
    · exact absurd (lt_of_lt_of_le hnorms.2 haccuracy) hviolation
  · rw [hcount, List.length_cons]
    omega

theorem decayed_le (hK : τ * 0.2 ^ K ≤ 1e-8) (hn : K ≤ n) : τ * 0.2 ^ n ≤ 1e-8 := by
  rcases le_or_gt τ 0 with hτ | hτ
  · exact (mul_nonpos_of_nonpos_of_nonneg hτ (by positivity)).trans (by norm_num)
  · have hpow : (0.2 : ℝ) ^ n ≤ 0.2 ^ K := pow_le_pow_of_le_one (by norm_num) (by norm_num) hn
    exact (mul_le_mul_of_nonneg_left hpow hτ.le).trans hK

/-- What makes a run end: the tolerance decays to the accuracy, and no radius ends a call that has
done no round. -/
structure Decays (options : TrustRegionOptions Extended) (c : TrustRegionContinuation Extended)
    (τ : ℝ) (K : ℕ) : Prop where
  solver : c.solver = InnerSolver.trustRegion options
  tolerance : c.controls.level.tolerance = real τ
  minRadius_le_initial : options.minRadius ≤ c.options.initialRadius
  minRadius_le : options.minRadius ≤ c.controls.radius
  decayed : τ * 0.2 ^ K ≤ 1e-8

/-- From a call on at which the tolerance has decayed, the rounds count the calls. -/
theorem Decays.le_iterations (hc : c.Decays options τ K)
    (h : ∀ m < K + n, (c.after m).Continues) : n ≤ (c.after (K + n)).controls.iterations := by
  induction n with
  | zero => exact Nat.zero_le _
  | succ n ih =>
    have hbefore : ∀ m < K + n, (c.after m).Continues := fun m hm ↦ h m (Nat.lt_succ_of_lt hm)
    have hlt := iterations_lt_of_continues ((frame_after c _).1.trans hc.solver)
      (minRadius_le_radius hc.minRadius_le_initial hc.minRadius_le (K + n))
      (tolerance_after hc.solver hc.tolerance hbefore)
      (decayed_le hc.decayed (Nat.le_add_right K n)) (h (K + n) (Nat.lt_succ_self _))
    exact Nat.succ_le_of_lt ((ih hbefore).trans_lt hlt)

/-- There are not too many calls that go on, since the last of them would be final. -/
theorem Decays.lt_of_continues (hc : c.Decays options τ K)
    (h : ∀ m < K + (n + 1), (c.after m).Continues) : n < 1000 := by
  have hlast : (c.after (K + n)).step.2.controls.iterations ≤ 1000 :=
    iterations_le_of_continues ((frame_after c _).1.trans hc.solver) (h _ (Nat.lt_succ_self _))
  exact (hc.le_iterations h).trans hlast

/-- A run that is allowed enough calls ends with a call of its own. -/
theorem Decays.exists_last_call (hc : c.Decays options τ K) {limit : ℕ}
    (hlimit : K + 1001 ≤ limit) :
    ∃ n ≤ K + 1000, (∀ m < n, (c.after m).Continues) ∧ c.run limit = (c.after n).step := by
  obtain ⟨n, -, hbefore, -, hrun⟩ | ⟨hall, -⟩ := run_concludes c limit
  · refine ⟨n, ?_, hbefore, hrun⟩
    by_contra hn
    exact (hc.lt_of_continues (n := 1000) fun m hm ↦ hbefore m (by omega)).false
  · exact ((hc.lt_of_continues (n := 1000) fun m hm ↦ hall m (hm.trans_le hlimit)).false).elim

theorem iterations_le_of_after (hsolver : c.solver = InnerSolver.trustRegion options)
    (hzero : c.controls.iterations = 0) (hbefore : ∀ m < n, (c.after m).Continues)
    {report : Report Extended} (h : (c.after n).step.1 = .ok report) :
    report.iterations ≤ 1000 + c.subproblem.maxIterations + 1 := by
  have hle := (iterations_le_of_step_ok ((frame_after c n).1.trans hsolver) h).2
  rw [subproblem_after] at hle
  have hsofar : (c.after n).controls.iterations ≤ 1000 := by
    obtain _ | n := n
    · rw [after, hzero]
      exact Nat.zero_le _
    · exact iterations_le_of_continues ((frame_after c n).1.trans hsolver)
        (hbefore n (Nat.lt_succ_self n))
  omega

end Calls

end Continuation

end LogBarrier
