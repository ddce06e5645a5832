import LogBarrier.Proofs.Barrier.BoundRows
import LogBarrier.Proofs.Barrier.Kkt
import LogBarrier.Proofs.Continuation.Slacks
import LogBarrier.Proofs.TrustRegion.Agreement

/-!
# Bounds or linear inequalities

Whether the finite bounds of a problem are given by its domain or as linear inequalities makes no
difference to a continuation. Both are called side by side here. They have subproblems that agree at
real points, so every call does the same inner solve, and what it leaves is the same again: the
iterate, the control parameters and the journal.

The solver is the trust region method with any options. In particular, the steps need not respect
the bounds on them, and the iterates need not be interior.
-/

namespace LogBarrier

open Extended

section Definitions

variable {α σ ε : Type} [Scalar α]

/-- The setup whose bounds are given as linear inequalities, after those that it has already. -/
def ContinuationSetup.withBoundRows (setup : ContinuationSetup α) : ContinuationSetup α :=
  let box := setup.objective.domain
  let parts := setup.affineInequality.getD (DenseMatrix.zeros 0 box.dim, [])
  { setup with
    objective := setup.objective.unbounded
    affineInequality := some
      (parts.1.withRows (box.boundRows parts.1.cols), parts.2 ++ box.boundOffsets) }

/-- The continuation with the bounds of its problem given as linear inequalities. -/
def Continuation.withBoundRows (c : Continuation α σ ε) : Continuation α σ ε :=
  { c with subproblem := c.subproblem.withBoundRows }

end Definitions

/-! ## Subproblems -/

namespace SlackForm

variable {p p' : SlackForm Extended}

theorem checkParts_withBoundRows (p : SlackForm Extended) :
    p.withBoundRows.checkParts = p.checkParts := by
  have hdim : p.withBoundRows.objective.domain.dim = p.objective.domain.dim :=
    variableCount_withBoundRows p
  rw [checkParts, checkParts, hdim]
  rfl

theorem start_withBoundRows (p : SlackForm Extended) : p.withBoundRows.start = p.start := by
  rw [start, start, slackCount_withBoundRows]
  rfl

theorem stepBox_withBoundRows (p : SlackForm Extended) :
    Continuation.stepBox p.withBoundRows = Continuation.stepBox p := by
  simp only [Continuation.stepBox, variableCount_withBoundRows, slackCount_withBoundRows,
    dim_withBoundRows]

/-- The slack forms have the same sizes, and the same functions over the real numbers. Their
Jacobians may be different operators. -/
structure Agrees (p p' : SlackForm Extended) : Prop where
  dim : p.dim = p'.dim
  constraintCount : p.constraintCount = p'.constraintCount
  value : ∀ level z, p.value level z = p'.value level z
  gradient : ∀ level z, p.gradient level z = p'.gradient level z
  constraints : ∀ z, Vec.IsReal z → p.constraints z = p'.constraints z
  scaling : ∀ z, p.scaling z = p'.scaling z
  jacobian : ∀ z, Operator.toMatrix <$> p.jacobian z = Operator.toMatrix <$> p'.jacobian z
  hessian : ∀ level z v, p.hessian level z v = p'.hessian level z v

/-- The problems of a level agree, given that they are stopped after the same number of
iterations. -/
theorem Agrees.atLevel (h : p.Agrees p') (hlimit : p.maxIterations = p'.maxIterations)
    (level : Level Extended) : (p.atLevel level).Agrees (p'.atLevel level) where
  dim := h.dim
  objective := funext (h.value level)
  gradient := funext (h.gradient level)
  constraints := h.constraints
  jacobian := h.jacobian
  hessian := funext₂ (h.hessian level)
  scaling := funext h.scaling
  stop := by
    funext report
    change p.stop level report = p'.stop level report
    rw [stop, stop, hlimit]

/-- Bounds given as rows make no difference to the functions. -/
theorem agrees_withBoundRows (hp : p.AffineParts) : p.Agrees p.withBoundRows where
  dim := (dim_withBoundRows p).symm
  constraintCount := (constraintCount_withBoundRows p).symm
  value := congrFun₂ (value_withBoundRows p).symm
  gradient := congrFun₂ (gradient_withBoundRows p).symm
  constraints _ hz := (constraints_withBoundRows hp hz).symm
  scaling := congrFun (scaling_withBoundRows p).symm
  jacobian z := (jacobian_withBoundRows hp.cols_inequality z).symm
  hessian := congrFun₃ (hessian_withBoundRows p).symm

end SlackForm

/-! ## Building -/

namespace AffineSystem

variable {system : AffineSystem Extended}

theorem ofParts_eq_ok_iff {m : DenseMatrix Extended} {b : Vec Extended} :
    ofParts m b = .ok system ↔ system.matrix = m ∧ system.offset = b := by
  rw [ofParts]
  constructor
  · intro h
    split_ifs at h
    cases h
    exact ⟨rfl, rfl⟩
  · rintro ⟨rfl, rfl⟩
    exact dif_pos system.rows_eq

theorem ofParts?_eq_ofParts (n : ℕ) (parts : Option (DenseMatrix Extended × Vec Extended)) :
    ofParts? n parts = ofParts (parts.getD (DenseMatrix.zeros 0 n, [])).1
      (parts.getD (DenseMatrix.zeros 0 n, [])).2 := by
  cases parts with
  | none => rfl
  | some parts => rfl

/-- The further rows and offsets are as many as each other, so they do not make a difference to what
is accepted. -/
theorem ofParts?_withBoundRows {setup : ContinuationSetup Extended} (n : ℕ) :
    ofParts? n setup.withBoundRows.affineInequality = .ok system ↔
      ∃ given, ofParts? setup.objective.domain.dim setup.affineInequality = .ok given
        ∧ system = given.withBounds setup.objective.domain := by
  rw [ofParts?_eq_ofParts, ofParts?_eq_ofParts, ContinuationSetup.withBoundRows]
  dsimp only [Option.getD_some]
  generalize setup.affineInequality.getD _ = parts
  constructor
  · intro h
    obtain ⟨hmatrix, hoffset⟩ := ofParts_eq_ok_iff.mp h
    have hrows := system.rows_eq
    rw [hmatrix, hoffset] at hrows
    change (parts.1.rowList ++ _).length = _ at hrows
    rw [List.length_append, List.length_append, DenseMatrix.length_rowList, Box.length_boundRows]
      at hrows
    refine ⟨⟨parts.1, parts.2, Nat.add_right_cancel hrows⟩, ofParts_eq_ok_iff.mpr ⟨rfl, rfl⟩, ?_⟩
    obtain ⟨matrix, offset, _⟩ := system
    cases hmatrix
    cases hoffset
    rfl
  · rintro ⟨given, hgiven, rfl⟩
    obtain ⟨hmatrix, hoffset⟩ := ofParts_eq_ok_iff.mp hgiven
    rw [← hmatrix, ← hoffset]
    exact ofParts_eq_ok_iff.mpr ⟨rfl, rfl⟩

end AffineSystem

namespace Continuation

section Building

variable {σ ε : Type} {setup : ContinuationSetup Extended} {solver : InnerSolver Extended σ ε}
  {state : σ} {c : Continuation Extended σ ε}

theorem begun_withBoundRows (setup : ContinuationSetup Extended) (solver : InnerSolver Extended σ ε)
    (state : σ) (affineInequality affineEquality : AffineSystem Extended) (v : Vec Extended) :
    setup.withBoundRows.begun solver state
        (setup.withBoundRows.form (affineInequality.withBounds setup.objective.domain)
          affineEquality) v =
      (setup.begun solver state (setup.form affineInequality affineEquality) v).withBoundRows := by
  have hform : setup.withBoundRows.form (affineInequality.withBounds setup.objective.domain)
      affineEquality = (setup.form affineInequality affineEquality).withBoundRows := rfl
  rw [hform, ContinuationSetup.begun, ContinuationSetup.begun, SlackForm.stepBox_withBoundRows,
    SlackForm.start_withBoundRows]
  rfl

theorem ofSetup_withBoundRows : ofSetup setup.withBoundRows solver state = .ok c ↔
    ∃ given, ofSetup setup solver state = .ok given ∧ c = given.withBoundRows := by
  have hdim : setup.withBoundRows.objective.domain.dim = setup.objective.domain.dim :=
    List.length_replicate
  constructor
  · intro h
    obtain ⟨v, system, affineEquality, hv, hsystem, hequality, hparts, hlength, rfl⟩ :=
      ofSetup_eq_ok_iff.mp h
    obtain ⟨affineInequality, hinequality, rfl⟩ :=
      (AffineSystem.ofParts?_withBoundRows _).mp hsystem
    rw [hdim] at hequality
    exact ⟨_, ofSetup_eq_ok_iff.mpr ⟨v, affineInequality, affineEquality, hv, hinequality,
        hequality, (SlackForm.checkParts_withBoundRows _).symm.trans hparts,
        (SlackForm.constraintCount_withBoundRows _).symm.trans hlength, rfl⟩,
      begun_withBoundRows setup solver state affineInequality affineEquality v⟩
  · rintro ⟨given, h, rfl⟩
    obtain ⟨v, affineInequality, affineEquality, hv, hinequality, hequality, hparts, hlength,
      rfl⟩ := ofSetup_eq_ok_iff.mp h
    exact ofSetup_eq_ok_iff.mpr ⟨v, affineInequality.withBounds setup.objective.domain,
      affineEquality, hv, (AffineSystem.ofParts?_withBoundRows _).mpr ⟨_, hinequality, rfl⟩,
      hdim.symm ▸ hequality, (SlackForm.checkParts_withBoundRows _).trans hparts,
      (SlackForm.constraintCount_withBoundRows _).trans hlength,
      (begun_withBoundRows setup solver state affineInequality affineEquality v).symm⟩

theorem complementarity_withBoundRows (c : Continuation Extended σ ε) :
    c.withBoundRows.complementarity = c.complementarity := by
  have hslack : c.withBoundRows.slack = c.slack := by
    rw [slack, slack, withBoundRows, SlackForm.variableCount_withBoundRows]
  rw [complementarity, complementarity, hslack]
  rfl

end Building

/-! ## The invariant -/

/-- What holds of a continuation over the real numbers before and after every call, whatever the
options of the solver are. -/
structure IsReal (options : TrustRegionOptions Extended) (c : TrustRegionContinuation Extended) :
    Prop where
  solver : c.solver = InnerSolver.trustRegion options
  bounds : c.bounds = stepBox c.subproblem
  subproblem : c.subproblem.RealValued
  affineParts : c.subproblem.AffineParts
  parameter : c.controls.level.parameter.IsReal
  multipliers : Vec.IsReal c.controls.multipliers
  iterate : Vec.IsReal c.iterate

variable {setup : ContinuationSetup Extended} {options : TrustRegionOptions Extended}
  {c : TrustRegionContinuation Extended}

theorem Built.isReal (hsetup : setup.RealValued)
    (h : Built setup (InnerSolver.trustRegion options) c) : c.IsReal options := by
  have hp := h.realValued hsetup
  exact {
    solver := h.solver
    bounds := h.bounds
    subproblem := hp
    affineParts :=
      SlackForm.affineParts_of_checkParts h.checked hp.affineInequality hp.affineEquality
    parameter := h.parameter ▸ hsetup.parameter
    multipliers := hsetup.multipliers _ h.multipliers
    iterate := h.iterate ▸ (SlackForm.interior_start hp h.checked).isReal }

namespace IsReal

theorem realValued (hc : c.IsReal options) : c.task.problem.RealValued :=
  SlackForm.realValued_atLevel hc.subproblem hc.parameter

theorem admitsReals (hc : c.IsReal options) : c.task.bounds.AdmitsReals := by
  rw [task, hc.bounds]
  exact (SlackForm.admitsZero_stepBox c.subproblem).admitReals

/-! ## One call -/

theorem solvedWith_withBoundRows (hc : c.IsReal options) :
    c.withBoundRows.solvedWith options = c.solvedWith options :=
  have hagrees : c.task.problem.Agrees c.withBoundRows.task.problem :=
    (SlackForm.agrees_withBoundRows hc.affineParts).atLevel rfl c.controls.level
  (TrustRegion.solve_eq_of_agrees hagrees hc.realValued hc.admitsReals hc.iterate hc.multipliers
    _ _ _).symm

theorem step_withBoundRows (hc : c.IsReal options) :
    c.withBoundRows.step = (c.step.1, c.step.2.withBoundRows) := by
  have hsolved := hc.solvedWith_withBoundRows
  have hsolver : c.withBoundRows.solver = InnerSolver.trustRegion options := hc.solver
  cases h : (c.solvedWith options).1 with
  | error failure =>
    have h' := (congrArg Prod.fst hsolved).trans h
    rw [step_of_solvedWith_error hc.solver h, step_of_solvedWith_error hsolver h', hsolved]
    rfl
  | ok report =>
    have h' := (congrArg Prod.fst hsolved).trans h
    rw [step_of_solvedWith_ok hc.solver h, step_of_solvedWith_ok hsolver h', hsolved]
    rfl

theorem solved (hc : c.IsReal options) : Vec.IsReal (c.solvedWith options).2.iterate
    ∧ ∀ report, (c.solvedWith options).1 = .ok report → Vec.IsReal report.multipliers := by
  rw [solvedWith]
  exact TrustRegion.isReal_solve hc.realValued hc.admitsReals hc.iterate hc.multipliers _

theorem step (hc : c.IsReal options) : c.step.2.IsReal options := by
  obtain ⟨hiterate, hmultipliers⟩ := hc.solved
  cases h : (c.solvedWith options).1 with
  | error failure =>
    rw [step_of_solvedWith_error hc.solver h]
    exact { hc with iterate := hiterate }
  | ok report =>
    rw [step_of_solvedWith_ok hc.solver h]
    exact { hc with
      parameter := hc.parameter.mul (isReal_ofScientific _ _ _)
      multipliers := hmultipliers report h
      iterate := hiterate }

/-! ## All calls -/

theorem after (hc : c.IsReal options) (n : ℕ) : (c.after n).IsReal options := by
  induction n with
  | zero => exact hc
  | succ n ih => exact ih.step

theorem after_withBoundRows (hc : c.IsReal options) (n : ℕ) :
    c.withBoundRows.after n = (c.after n).withBoundRows := by
  induction n with
  | zero => rfl
  | succ n ih => rw [Continuation.after, ih, (hc.after n).step_withBoundRows, Continuation.after]

end IsReal

/-- **Interchange.** Giving the finite bounds of a problem as linear inequalities makes no
difference. The one problem is accepted exactly if the other is. The sizes and the functions of
their slack forms are the same. However often both are called, they answer the same, and they hold
the same iterate, controls (these are the level, the radius, the multipliers and the count of
iterations), solved level, journals and complementarity. -/
theorem bounds_interchangeable (setup : ContinuationSetup Extended) (hsetup : setup.RealValued)
    (options : TrustRegionOptions Extended) (journals : List (Journal Extended)) :
    ((∃ c, ofSetup setup (InnerSolver.trustRegion options) journals = .ok c) ↔
      ∃ c', ofSetup setup.withBoundRows (InnerSolver.trustRegion options) journals = .ok c')
    ∧ ∀ c c' : TrustRegionContinuation Extended,
      ofSetup setup (InnerSolver.trustRegion options) journals = .ok c →
      ofSetup setup.withBoundRows (InnerSolver.trustRegion options) journals = .ok c' →
        c.subproblem.Agrees c'.subproblem
        ∧ ∀ n, (c'.after n).step.1 = (c.after n).step.1
          ∧ (c'.after n).iterate = (c.after n).iterate
          ∧ (c'.after n).controls = (c.after n).controls
          ∧ (c'.after n).solvedLevel = (c.after n).solvedLevel
          ∧ (c'.after n).solverState = (c.after n).solverState
          ∧ (c'.after n).complementarity = (c.after n).complementarity := by
  refine ⟨⟨?_, ?_⟩, fun c c' hc hc' ↦ ?_⟩
  · rintro ⟨c, hc⟩
    exact ⟨c.withBoundRows, ofSetup_withBoundRows.mpr ⟨c, hc, rfl⟩⟩
  · rintro ⟨c', hc'⟩
    obtain ⟨c, hc, -⟩ := ofSetup_withBoundRows.mp hc'
    exact ⟨c, hc⟩
  · have hreal : c.IsReal options := (built_of_ofSetup hc).isReal hsetup
    obtain ⟨given, hgiven, rfl⟩ := ofSetup_withBoundRows.mp hc'
    obtain rfl : given = c := Except.ok.inj (hgiven.symm.trans hc)
    refine ⟨SlackForm.agrees_withBoundRows hreal.affineParts, fun n ↦ ?_⟩
    have hn := hreal.after n
    rw [hreal.after_withBoundRows n, hn.step_withBoundRows]
    exact ⟨rfl, rfl, rfl, rfl, rfl, complementarity_withBoundRows _⟩

/-- The parabola has two finite bounds. With two linear inequalities in their place, it is solved in
the same way. -/
theorem parabola_with_boundRows :
    parabolaSetup.RealValued ∧ ∃ c c' : TrustRegionContinuation Extended,
      ofSetup parabolaSetup (InnerSolver.trustRegion {}) [] = .ok c
      ∧ ofSetup parabolaSetup.withBoundRows (InnerSolver.trustRegion {}) [] = .ok c'
      ∧ c.subproblem.affineInequality.count = 0 ∧ c'.subproblem.affineInequality.count = 2
      ∧ c.subproblem.Agrees c'.subproblem
      ∧ ∀ n, (c'.after n).step.1 = (c.after n).step.1
        ∧ (c'.after n).iterate = (c.after n).iterate
        ∧ (c'.after n).controls = (c.after n).controls := by
  obtain ⟨hagrees, hsame⟩ := (bounds_interchangeable parabolaSetup realValued_parabolaSetup {}
    []).2 _ _ rfl (ofSetup_withBoundRows.mpr ⟨_, rfl, rfl⟩)
  exact ⟨realValued_parabolaSetup, _, _, rfl, ofSetup_withBoundRows.mpr ⟨_, rfl, rfl⟩, rfl, rfl,
    hagrees, fun n ↦ ⟨(hsame n).1, (hsame n).2.1, (hsame n).2.2.1⟩⟩

end Continuation

end LogBarrier
