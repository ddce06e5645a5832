import LogBarrier.Proofs.Barrier.Checks
import LogBarrier.Proofs.Continuation.Totality

/-!
# Validation of a setup

A setup of steady functions is accepted exactly if all its sizes agree with the dimension `n` of the
domain and with the numbers of constraints:

```text
initial point, gradient       n
Hessian                       n × n
values of constraints         number of these constraints
Jacobian of constraints       number of these constraints × n
matrix of linear constraints  length of the offset × n
multipliers                   number of all constraints and of all finite bounds
```

What has been checked once at the initial point is all that a run ever relies on. So after a setup
was accepted, no call ends in a fault of lengths, indices or blocks. The one fault of the barrier is
that of a slack which is not positive, and a zero pivot can only be met if the test for deficiency
lets a zero pass. It never does so over the extended real numbers.
-/

namespace LogBarrier

variable {α : Type} [Scalar α]

namespace ContinuationSetup

variable {setup : ContinuationSetup α} {sizes : FunctionSizes}

/-- The functions answer every point with an entry for each variable, always in the same sizes. -/
structure Steady (setup : ContinuationSetup α) (sizes : FunctionSizes) : Prop where
  objective : setup.objective.Steady sizes.objective setup.equality.count setup.inequality.count
  equality : setup.equality.Steady sizes.equality setup.objective.domain.dim
  inequality : setup.inequality.Steady sizes.inequality setup.objective.domain.dim

/-- The number of constraints, which is also the number of multipliers that have to be given. -/
def constraintCount (setup : ContinuationSetup α) : ℕ :=
  setup.equality.count + AffineSystem.givenCount setup.affineEquality
    + (setup.inequality.count + AffineSystem.givenCount setup.affineInequality
      + setup.objective.domain.upperBounded.length + setup.objective.domain.lowerBounded.length)

/-- The multipliers are given, and the sizes of all parts agree with the dimension of the domain and
with the numbers of constraints. -/
structure Consistent (setup : ContinuationSetup α) (sizes : FunctionSizes) : Prop where
  multipliers : ∃ v, setup.multipliers = some v ∧ v.length = setup.constraintCount
  initial : setup.initial.length = setup.objective.domain.dim
  objective : sizes.objective = setup.objective.declared
  equality : sizes.equality = setup.equality.declared setup.objective.domain.dim
  inequality : sizes.inequality = setup.inequality.declared setup.objective.domain.dim
  affineEquality : ∀ a b, setup.affineEquality = some (a, b) →
    a.rows = b.length ∧ a.cols = setup.objective.domain.dim
  affineInequality : ∀ a b, setup.affineInequality = some (a, b) →
    a.rows = b.length ∧ a.cols = setup.objective.domain.dim

theorem Consistent.total (h : setup.Consistent sizes) (hsteady : setup.Steady sizes) :
    setup.Total := by
  obtain ⟨objective, equality, inequality⟩ := sizes
  obtain ⟨-, -, rfl, rfl, rfl, -, -⟩ := h
  exact {
    objective := ⟨hsteady.objective.value, hsteady.objective.gradient, hsteady.objective.hessian⟩
    equality := ⟨hsteady.equality.value, hsteady.equality.jacobian⟩
    inequality := ⟨hsteady.inequality.value, hsteady.inequality.jacobian⟩ }

/-- Given the linear constraints, the setup is consistent if its problem is and if there is a
multiplier for each constraint. -/
theorem consistent_iff_form {v : Vec α} {affineInequality affineEquality : AffineSystem α}
    (hv : setup.multipliers = some v)
    (hinequality : affineInequality.Represents setup.objective.domain.dim setup.affineInequality)
    (hequality : affineEquality.Represents setup.objective.domain.dim setup.affineEquality) :
    setup.Consistent sizes ↔ (setup.form affineInequality affineEquality).Consistent sizes
      ∧ (setup.form affineInequality affineEquality).constraintCount = v.length := by
  have hcount : (setup.form affineInequality affineEquality).constraintCount
      = setup.constraintCount := by
    rw [constraintCount, ← hinequality.count_eq, ← hequality.count_eq]
    rfl
  rw [hcount]
  constructor
  · rintro ⟨⟨v', hv', hlength⟩, hinitial, hobjective, hequalities, hinequalities, haffineEquality,
      haffineInequality⟩
    obtain rfl : v = v' := Option.some.inj (hv.symm.trans hv')
    exact ⟨⟨hinitial, hobjective, hequalities, hinequalities,
      hequality.cols_iff.mpr fun a b hparts ↦ (haffineEquality a b hparts).2,
      hinequality.cols_iff.mpr fun a b hparts ↦ (haffineInequality a b hparts).2⟩, hlength.symm⟩
  · rintro ⟨⟨hinitial, hobjective, hequalities, hinequalities, haffineEquality,
      haffineInequality⟩, hlength⟩
    exact ⟨⟨v, hv, hlength.symm⟩, hinitial, hobjective, hequalities, hinequalities,
      fun a b hparts ↦ ⟨hequality.rows_eq a b hparts,
        hequality.cols_iff.mp haffineEquality a b hparts⟩,
      fun a b hparts ↦ ⟨hinequality.rows_eq a b hparts,
        hinequality.cols_iff.mp haffineInequality a b hparts⟩⟩

end ContinuationSetup

namespace Continuation

open Extended

variable {setup : ContinuationSetup α} {sizes : FunctionSizes}

/-- **Building is exact.** It succeeds if the setup is consistent, and it reports an inconsistency
otherwise. -/
theorem validates_ofSetup {σ ε : Type} (h : setup.Steady sizes) (solver : InnerSolver α σ ε)
    (state : σ) :
    Validates (setup.Consistent sizes) (fun _ ↦ True) (ofSetup setup solver state) := by
  rw [ofSetup]
  split
  next v hv =>
    -- The rows of the linear constraints are checked first, their columns with everything else.
    refine ((AffineSystem.validates_ofParts? _ setup.affineInequality).bind
      fun affineInequality _ hinequality ↦ (AffineSystem.validates_ofParts? _
        setup.affineEquality).bind (R := setup.Consistent sizes)
          fun affineEquality _ hequality ↦ ?_).congr ?_
    · refine Validates.congr ?_
        (ContinuationSetup.consistent_iff_form hv hinequality hequality).symm
      refine (SlackForm.validates_checked ⟨h.objective, h.equality, h.inequality⟩).bind
        fun p _ hp ↦ ?_
      rw [hp]
      exact (Validates.check .multipliers _ _).map fun _ _ ↦ trivial
    · constructor
      · exact fun hall ↦ hall.2.2
      · exact fun hall ↦ ⟨fun a b hparts ↦ (hall.affineInequality a b hparts).1,
          fun a b hparts ↦ (hall.affineEquality a b hparts).1, hall⟩
  next hnone =>
    refine .inr ⟨fun hall ↦ ?_, .noMultipliers, rfl⟩
    obtain ⟨v, hv, -⟩ := hall.multipliers
    exact hnone v hv

/-- A call faults at a slack that is not positive, or at a zero pivot that was not detected. -/
theorem Shaped.faultsWithin_step {options : TrustRegionOptions α} {c : TrustRegionContinuation α}
    (hc : c.Shaped options) :
    FaultsWithin (fun cause ↦ cause = .slackNotPositive
      ∨ cause = .zeroPivot ∧ ¬Projector.DetectsZero α) c.step.1 := by
  refine (hc.step_of_allowed (.inl rfl) ?_).2
  by_cases h : Projector.DetectsZero α
  · exact .inl h
  · exact .inr (.inr ⟨rfl, h⟩)

/-- **Validation is exact and suffices.** A setup of steady functions is built if and only if it is
consistent, and otherwise an inconsistency is reported. If it is built, then the functions of the
subproblem are defined, in their sizes, wherever the slacks are positive and there is a multiplier
for each constraint. However many calls are made, the iterate, the multipliers and the bounds keep
their lengths, and no call ends in a fault of lengths, indices or blocks. -/
theorem validation_exact_and_sufficient (hsteady : setup.Steady sizes) :
    (∀ {σ ε : Type} (solver : InnerSolver α σ ε) (state : σ),
      ((∃ c, ofSetup setup solver state = .ok c) ↔ setup.Consistent sizes)
      ∧ (¬setup.Consistent sizes →
        ∃ cause, ofSetup setup solver state = .error (.error cause)))
    ∧ ∀ (options : TrustRegionOptions α) (journals : List (Journal α))
      (c : TrustRegionContinuation α),
      ofSetup setup (InnerSolver.trustRegion options) journals = .ok c →
      (∀ level z v, z.length = c.subproblem.dim →
        (∀ s ∈ z.drop c.subproblem.variableCount, 0 < s) →
        v.length = c.subproblem.constraintCount → c.subproblem.EvaluatesAt level z v)
      ∧ ∀ n, (c.after n).iterate.length = c.subproblem.dim
        ∧ (c.after n).controls.multipliers.length = c.subproblem.constraintCount
        ∧ (c.after n).bounds.dim = c.subproblem.dim
        ∧ ∀ cause, (c.after n).step.1 = .error (.fault cause) →
          cause = .slackNotPositive ∨ cause = .zeroPivot ∧ ¬Projector.DetectsZero α := by
  constructor
  · intro σ ε solver state
    have hvalidates := validates_ofSetup hsteady solver state
    exact ⟨hvalidates.exists_ok_iff, hvalidates.exists_error⟩
  intro options journals c hc
  have hconsistent := (validates_ofSetup hsteady _ _).exists_ok_iff.mp ⟨c, hc⟩
  have hshaped : c.Shaped options :=
    (built_of_ofSetup hc).shapedWith (hconsistent.total hsteady)
  constructor
  · intro level z v hz hpositive hv
    exact SlackForm.evaluatesAt hshaped.subproblem level hz hpositive hv
  · intro n
    have hafter := hshaped.after n
    refine ⟨?_, ?_, ?_, hafter.faultsWithin_step⟩
    · rw [hafter.iterate, subproblem_after]
    · rw [hafter.multipliers, subproblem_after]
    · rw [hafter.bounds, subproblem_after, dim_stepBox]

/-! ## A logarithm with a linear constraint -/

/-- The logarithm with a linear inequality, from a point that has a logarithm. -/
noncomputable def limitedLogarithm (multipliers : Vec Extended) : ContinuationSetup Extended :=
  { logarithmSetup with
    affineInequality := some (DenseMatrix.ofFn 1 1 fun _ _ ↦ real 1, [real (-1)])
    initial := [real 1]
    multipliers := some multipliers }

theorem steady_limitedLogarithm (multipliers : Vec Extended) :
    (limitedLogarithm multipliers).Steady ⟨⟨1, 1, 1⟩, ⟨0, 0, 1⟩, ⟨1, 1, 1⟩⟩ where
  objective :=
    ⟨total_logarithmSetup.objective.value, total_logarithmSetup.objective.gradient,
      total_logarithmSetup.objective.hessian⟩
  equality := ⟨total_logarithmSetup.equality.value, total_logarithmSetup.equality.jacobian⟩
  inequality := ⟨total_logarithmSetup.inequality.value, total_logarithmSetup.inequality.jacobian⟩

/-- The logarithm needs two multipliers, one for each inequality. It is built if they are given, and
then its runs do not fault but at a slack. With a single one it is refused. -/
theorem limitedLogarithm_is_validated :
    (∀ v, (limitedLogarithm v).Steady ⟨⟨1, 1, 1⟩, ⟨0, 0, 1⟩, ⟨1, 1, 1⟩⟩)
    ∧ (∃ c : TrustRegionContinuation Extended,
      ofSetup (limitedLogarithm [0, 0]) (InnerSolver.trustRegion {}) [] = .ok c
      ∧ (∀ level, c.subproblem.EvaluatesAt level [1, 1, 1] [0, 0])
      ∧ ∀ n cause, (c.after n).step.1 = .error (.fault cause) → cause = .slackNotPositive)
    ∧ ∃ cause, ofSetup (limitedLogarithm [0]) (InnerSolver.trustRegion {}) []
        = .error (.error cause) := by
  refine ⟨steady_limitedLogarithm, ?_, ?_⟩
  · obtain ⟨c, hc, hcount, hdim, hconstraints⟩ : ∃ c : TrustRegionContinuation Extended,
        ofSetup (limitedLogarithm [0, 0]) (InnerSolver.trustRegion {}) [] = .ok c
        ∧ c.subproblem.variableCount = 1 ∧ c.subproblem.dim = 3
        ∧ c.subproblem.constraintCount = 2 := ⟨_, rfl, rfl, rfl, rfl⟩
    obtain ⟨hevaluates, hruns⟩ :=
      (validation_exact_and_sufficient (steady_limitedLogarithm [0, 0])).2 {} [] c hc
    refine ⟨c, hc, fun level ↦ hevaluates level _ _ hdim.symm ?_ hconstraints.symm, ?_⟩
    · rw [hcount]
      have hone : (0 : Extended) < 1 := real_lt.mpr one_pos
      exact List.forall_mem_cons.mpr ⟨hone, List.forall_mem_singleton.mpr hone⟩
    · intro n cause h
      exact ((hruns n).2.2.2 cause h).resolve_right fun hpivot ↦ hpivot.2 Projector.detectsZero
  · refine ((validation_exact_and_sufficient (steady_limitedLogarithm [0])).1 _ _).2 fun h ↦ ?_
    obtain ⟨v, ⟨⟩, hlength⟩ := h.multipliers
    have hfew : 1 = 2 := hlength
    omega

end Continuation

end LogBarrier
