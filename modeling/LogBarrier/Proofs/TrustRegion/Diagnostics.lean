import LogBarrier.Proofs.TrustRegion.Merit

/-!
# Diagnostics of the trust region method

A report describes the iterate that the run leaves, whichever way the run has come there. Nothing in
it is older than the last accepted trial.

The statements are about every problem, whatever its functions do, and about every type of scalars.
-/

namespace LogBarrier

variable {α : Type} [Scalar α]

/-- Everything that the report says about its iterate is what the problem gives there. -/
def Report.Describes (problem : InnerProblem α) (report : Report α) (z : Vec α) : Prop :=
  ∃ gradient op projector y w sum residual,
    problem.gradient z = .ok gradient ∧ problem.jacobian z = .ok op
    ∧ Projector.ofMatrix op.toMatrix = .ok projector
    ∧ projector.coefficients gradient = .ok y ∧ report.multipliers = Vec.neg y
    ∧ op.toMatrix.trMulVec report.multipliers = .ok w ∧ Vec.add gradient w = .ok sum
    ∧ report.optimality = Vec.maxNorm sum
    ∧ problem.constraints z = .ok residual ∧ report.violation = Vec.maxNorm residual

namespace TrustRegion

open Run Extended

variable {problem : InnerProblem α} {options : TrustRegionOptions α} {bounds : StepBox α}
  {z v : Vec α} {radius penalty : α} {s s₀ : State α} {trials : List (Trial α)}

theorem describes_of_fresh (h : s.point.Fresh problem v) :
    s.report.Describes problem s.point.iterate := by
  obtain ⟨op, hop, hjacobian⟩ := h.jacobian
  obtain ⟨y, hy, hmultipliers⟩ := h.multipliers
  obtain ⟨w, sum, hw, hsum, hoptimality⟩ := h.optimality
  have hprojector := h.projector
  rw [hjacobian] at hprojector hw
  exact ⟨s.point.gradient, op, s.point.projector, y, w, sum, s.point.residual, h.gradient, hop,
    hprojector, hy, hmultipliers, hw, hsum, hoptimality, h.residual, h.violation⟩

theorem describes_of_solve_eq_ok {limit : ℕ} {report : Report α} {journal : Journal α}
    (h : solve problem options bounds z v radius penalty limit = (.ok report, journal)) :
    report.Describes problem journal.iterate := by
  obtain ⟨s₀, trials, s, hs₀, path, rfl, hz, -⟩ := solve_eq_ok h
  rw [hz]
  exact describes_of_fresh (path.fresh (start_eq_ok hs₀).2.1)

/-- **Diagnostics.** Every state of a search is fresh. A report describes the iterate that the run
leaves, which is the first one or that of the last accepted trial, and an error names what is wrong
with the iterate that the run leaves. -/
theorem solve_describes_iterate (problem : InnerProblem α) (options : TrustRegionOptions α)
    (bounds : StepBox α) (z v : Vec α) (radius penalty : α) (limit : ℕ) :
    (∀ s₀, start problem z v radius penalty = .ok s₀ →
      ∀ trials s, Path problem options bounds s₀ trials s →
        s.point.Fresh problem
          ((lastAccepted options trials).elim v fun _ ↦ s.point.multipliers))
    ∧ (∀ report journal,
      solve problem options bounds z v radius penalty limit = (.ok report, journal) →
        report.Describes problem journal.iterate
        ∧ (problem.stop report = true ∨ report.radius < options.minRadius)
        ∧ ∃ s₀ trials s, start problem z v radius penalty = .ok s₀
          ∧ Path problem options bounds s₀ trials s ∧ report = s.report
          ∧ journal.iterate = ((lastAccepted options trials).map Trial.next).getD z
          ∧ report.iterations = trials.length)
    ∧ ∀ cause journal,
      solve problem options bounds z v radius penalty limit = (.error (.error cause), journal) →
        (∃ op, problem.jacobian journal.iterate = .ok op
          ∧ Projector.ofMatrix op.toMatrix = .error cause)
        ∧ (journal.iterate = z ∨ ∃ s trial,
          Tries problem options bounds z v radius penalty s trial
          ∧ trial.isAccepted options = true ∧ journal.iterate = trial.next) := by
  refine ⟨fun s₀ hs₀ trials s path ↦ path.fresh (start_eq_ok hs₀).2.1,
    fun report journal hsolve ↦ ⟨describes_of_solve_eq_ok hsolve, ?_⟩,
    fun cause journal hsolve ↦ ?_⟩
  · obtain ⟨s₀, trials, s, hs₀, path, rfl, hw, hends⟩ := solve_eq_ok hsolve
    obtain ⟨hz, -, hrounds⟩ := start_eq_ok hs₀
    refine ⟨hends, s₀, trials, s, hs₀, path, rfl, ?_, ?_⟩
    · rw [hw, path.iterate, hz]
    · rw [State.report, path.rounds, hrounds, Nat.zero_add]
  · have hconcludes := solve_concludes problem options bounds z v radius penalty limit
    rw [hsolve] at hconcludes
    obtain ⟨hrefused, -⟩ | ⟨failure, hfailed, heq, hz⟩ | ⟨s₀, hs₀, hconclusion⟩ := hconcludes
    · cases hrefused
    · cases heq
      dsimp only at hz
      rw [hz]
      exact ⟨Point.ofMatrix_of_evaluate_eq_error (start_eq_error hfailed), .inl rfl⟩
    dsimp only at hconclusion
    generalize hw : journal.iterate = w at hconclusion ⊢
    cases hconclusion with
    | @moveFailure trials s trial _ path going proposed taken lost =>
      exact ⟨Point.ofMatrix_of_complete_eq_error (moved_eq_error lost),
        .inr ⟨s, trial, tries_iff.mpr ⟨s₀, trials, hs₀, path, going, proposed⟩, taken, rfl⟩⟩

/-- The solve that goes to the ledge stops after one round, and its report describes the middle of
the ledge. -/
theorem ledge_is_described : ∃ report journal,
    solve ledge {} ledgeBounds [real 1, real 1] [real 0] (real 2) (real 1) 2 = (.ok report, journal)
      ∧ report.violation = 0 ∧ report.multipliers = [real 2]
      ∧ journal.iterate = [real 0, real 0] ∧ report.Describes ledge journal.iterate
      ∧ ∃ s₀ trials s, start ledge [real 1, real 1] [real 0] (real 2) (real 1) = .ok s₀
        ∧ Path ledge {} ledgeBounds s₀ trials s ∧ report = s.report
        ∧ journal.iterate = ((lastAccepted {} trials).map Trial.next).getD [real 1, real 1]
        ∧ trials.length = 1 := by
  obtain ⟨p, hp⟩ := exists_projector_ledge
  have arrives : Arrives ledge {} ledgeBounds [real 1, real 1] [real 0] (real 2) (real 1) 2 2
      (ledgeStart p 2) ⟨[real 1, real 1], #[], #[]⟩ := .start (start_ledge hp)
  obtain ⟨trial, j', proposes, hstep⟩ := exists_proposes_ledge hp ⟨[real 1, real 1], #[], #[]⟩
  have proposed := proposes.attempt.1
  -- The trial is taken, so that the search goes on in the middle of the ledge.
  obtain ⟨j'', arrives'⟩ := arrives.exists_accepted proposes (accepted_ledge hp proposed hstep)
    (moved_ledge hp (evaluated_of_attempt proposed) hstep)
  have hstop : ledge.stop (ledgeEnd p trial).report = true := real_beq.mpr abs_zero
  obtain ⟨journal, hsolve, hiterate⟩ := arrives'.solve_of_stop rfl hstop
  obtain ⟨hdescribes, -, s₀, trials, s, hs₀, path, hreport, hlast, hrounds⟩ :=
    (solve_describes_iterate ledge {} ledgeBounds [real 1, real 1] [real 0] (real 2) (real 1)
      2).2.1 _ _ hsolve
  refine ⟨_, _, hsolve, congrArg real abs_zero, ?_, hiterate, hdescribes, s₀, trials, s, hs₀, path,
    hreport, hlast, hrounds.symm⟩
  change [real (1 + 1)] = _
  rw [one_add_one_eq_two]

end TrustRegion

end LogBarrier
