import LogBarrier.Proofs.Shape.Steps
import LogBarrier.Proofs.TrustRegion.Conclusions

/-!
# Searches without faults of shape

A problem is *shaped* if its functions answer every iterate of its dimension with values of the
right lengths. No part of a search for such a problem faults by itself. What is left are the faults
of the functions of the problem, and that of a zero pivot where scalars have no laws.
-/

namespace LogBarrier

/-- The functions of the problem answer with values of the right lengths, or they end in one of the
faults that are allowed. A zero pivot has to be allowed, too, if it can go unnoticed. -/
structure InnerProblem.Shaped {α : Type} [Scalar α] (allowed : Fault → Prop)
    (problem : InnerProblem α) : Prop where
  pivots : Projector.DetectsZero α ∨ allowed .zeroPivot
  objective : ∀ z, z.length = problem.dim → Ensures allowed (fun _ ↦ True) (problem.objective z)
  gradient : ∀ z, z.length = problem.dim →
    Ensures allowed (fun g ↦ g.length = problem.dim) (problem.gradient z)
  constraints : ∀ z, z.length = problem.dim →
    Ensures allowed (fun c ↦ c.length = problem.constraintCount) (problem.constraints z)
  jacobian : ∀ z, z.length = problem.dim →
    Ensures allowed (fun op ↦ op.HasShape problem.constraintCount problem.dim) (problem.jacobian z)
  hessian : ∀ z v, z.length = problem.dim → v.length = problem.constraintCount →
    Ensures allowed (fun op ↦ op.HasShape problem.dim problem.dim) (problem.hessian z v)
  scaling : ∀ z, z.length = problem.dim →
    Ensures allowed (fun op ↦ op.HasShape problem.dim problem.dim) (problem.scaling z)

structure Point.Shaped {α : Type} [Scalar α] (allowed : Fault → Prop) (point : Point α)
    (m n : ℕ) : Prop where
  iterate : point.iterate.length = n
  residual : point.residual.length = m
  gradient : point.gradient.length = n
  rows : point.jacobian.rows = m
  cols : point.jacobian.cols = n
  projector : point.projector.Regular allowed m n
  multipliers : point.multipliers.length = m
  hessian : point.hessian.HasShape n n

variable {α : Type} [Scalar α] {allowed : Fault → Prop} {problem : InnerProblem α}

namespace Point

theorem shaped_of_fresh {point : Point α} {v : Vec α}
    (hproblem : problem.Shaped allowed) (hz : point.iterate.length = problem.dim)
    (hv : v.length = problem.constraintCount ∨ v = point.multipliers)
    (h : point.Fresh problem v) : point.Shaped allowed problem.constraintCount problem.dim := by
  obtain ⟨op, hop, hdense⟩ := h.jacobian
  have hshape := (hproblem.jacobian _ hz).of_eq_ok hop
  have hrows : point.jacobian.rows = problem.constraintCount := by
    rw [hdense, Operator.rows_toMatrix, hshape.rows_eq]
  have hcols : point.jacobian.cols = problem.dim := by
    rw [hdense, Operator.cols_toMatrix, hshape.cols_eq]
  have hprojector := Projector.regular_of_ofMatrix hproblem.pivots h.projector
  rw [hrows, hcols] at hprojector
  have hgradient := (hproblem.gradient _ hz).of_eq_ok h.gradient
  obtain ⟨y, hy, hneg⟩ := h.multipliers
  have hmultipliers : point.multipliers.length = problem.constraintCount := by
    have hcoefficients : Ensures allowed _ (point.projector.coefficients point.gradient) :=
      Projector.ensures_coefficients hprojector hgradient
    rw [hneg, Vec.length_neg, hcoefficients.of_eq_ok hy]
  exact {
    iterate := hz
    residual := (hproblem.constraints _ hz).of_eq_ok h.residual
    gradient := hgradient
    rows := hrows
    cols := hcols
    projector := hprojector
    multipliers := hmultipliers
    hessian := (hproblem.hessian _ v hz (hv.elim id fun heq ↦ heq ▸ hmultipliers)).of_eq_ok
      h.hessian }

variable {z : Vec α}

/-- A completion can only fault where a function of the problem does. -/
theorem faultsWithin_complete (hproblem : problem.Shaped allowed) (hz : z.length = problem.dim)
    {given : Option (Vec α)}
    (hgiven : ∀ v, given = some v → v.length = problem.constraintCount) (objective : α)
    (residual : Vec α) :
    FaultsWithin allowed (complete problem z objective residual given) := by
  rw [complete_eq]
  refine FaultsWithin.bind_ofFault (hproblem.gradient z hz) fun gradient hgradient ↦
    FaultsWithin.bind_ofFault (hproblem.jacobian z hz) fun op hop ↦ ?_
  split
  · exact nofun
  next projector hprojector =>
    have hregular := Projector.regular_of_ofMatrix hproblem.pivots hprojector
    rw [Operator.rows_toMatrix, Operator.cols_toMatrix, hop.rows_eq, hop.cols_eq] at hregular
    have hrows : op.toMatrix.rows = problem.constraintCount := by
      rw [Operator.rows_toMatrix, hop.rows_eq]
    have hcols : op.toMatrix.cols = problem.dim := by rw [Operator.cols_toMatrix, hop.cols_eq]
    refine FaultsWithin.ofFault (P := fun _ ↦ True) ?_
    refine (Projector.ensures_coefficients hregular hgradient).bind fun y hy ↦ ?_
    have hmultipliers := (Vec.length_neg y).trans hy
    have hv : (given.getD (Vec.neg y)).length = problem.constraintCount := by
      cases given with
      | none => exact hmultipliers
      | some v => exact hgiven v rfl
    exact (hproblem.hessian z _ hz hv).bind fun _ _ ↦
      (DenseMatrix.ensures_trMulVec (hmultipliers.trans hrows.symm)).bind fun w hw ↦
        (Vec.ensures_add hgradient (hw.trans hcols)).bind fun _ _ ↦ Ensures.pure trivial

theorem faultsWithin_evaluate (hproblem : problem.Shaped allowed) (hz : z.length = problem.dim)
    {v : Vec α} (hv : v.length = problem.constraintCount) :
    FaultsWithin allowed (evaluate problem z v) :=
  FaultsWithin.bind_ofFault (hproblem.objective z hz) fun _ _ ↦
    FaultsWithin.bind_ofFault (hproblem.constraints z hz) fun _ _ ↦
      faultsWithin_complete hproblem hz (fun _ h ↦ by cases h; exact hv) _ _

end Point

namespace TrustRegion

variable {options : TrustRegionOptions α} {bounds : StepBox α}
  {s s₀ : State α} {trials : List (Trial α)} {trial : Trial α}

theorem ensures_normalStep {m n : ℕ} (hpoint : s.point.Shaped allowed m n) (hdim : bounds.dim = n) :
    Ensures allowed (fun r ↦ r.1.length = n)
      (Trial.normalStep options bounds s.point s.radius) :=
  NormalStep.ensures_compute _ hpoint.projector hpoint.rows hpoint.cols hpoint.residual
    ((Vec.length_scale _ _).trans hdim)
    ((Vec.length_scale _ _).trans (bounds.length_eq.symm.trans hdim))

theorem ensures_tangentialModel {m n : ℕ} (hpoint : s.point.Shaped allowed m n)
    (hdim : bounds.dim = n) {normal : Vec α} (hnormal : normal.length = n) :
    Ensures allowed (fun model ↦ model.Shaped allowed m n)
      (Trial.tangentialModel bounds s.point s.radius normal) :=
  (Vec.ensures_sub hdim hnormal).bind fun _ hlower ↦
    (Vec.ensures_sub (bounds.length_eq.symm.trans hdim) hnormal).bind fun _ hupper ↦
      Ensures.pure ⟨hpoint.hessian, hpoint.projector, hlower, hupper⟩

theorem ensures_tangentialStep {m n : ℕ} (hpoint : s.point.Shaped allowed m n)
    (hdim : bounds.dim = n) {normal : Vec α} (hnormal : normal.length = n) :
    Ensures allowed (fun r ↦ r.1.length = n)
      (Trial.tangentialStep bounds s.point s.radius normal) :=
  (hpoint.hessian.ensures_apply hnormal).bind fun _ himage ↦
    (Vec.ensures_add himage hpoint.gradient).bind fun _ hgradient ↦
      (ensures_tangentialModel hpoint hdim hnormal).bind fun _ hmodel ↦
        TangentialStep.ensures_compute hmodel hgradient ((Vec.length_zeros _).trans hpoint.residual)

/-- The end of a step is an iterate. The property of it is for those who know more of the step, and
it may make the objective fault. -/
theorem ensures_evaluate {P : Vec α → Prop} {step : Vec α} {penalty : α}
    (hproblem : problem.Shaped allowed)
    (hpoint : s.point.Shaped allowed problem.constraintCount problem.dim)
    (hstep : step.length = problem.dim)
    (hnext : ∀ op change next, problem.scaling s.point.iterate = .ok op →
      op.apply step = .ok change → Vec.add s.point.iterate change = .ok next →
      next.length = problem.dim → Ensures allowed (fun _ ↦ P next) (problem.objective next)) :
    Ensures allowed (fun trial ↦ trial.next.length = problem.dim ∧ P trial.next)
      (Trial.evaluate problem options s.point penalty step) := by
  refine (hpoint.hessian.ensures_apply hstep).bind fun _ himage ↦
    (Vec.ensures_dot himage hstep).bind fun _ _ ↦
      (Vec.ensures_dot hpoint.gradient hstep).bind fun _ _ ↦
        (DenseMatrix.ensures_mulVec (hstep.trans hpoint.cols.symm)).bind fun _ himage ↦
          (Vec.ensures_add (himage.trans hpoint.rows) hpoint.residual).bind fun _ _ ↦ ?_
  refine (hproblem.scaling _ hpoint.iterate).bind_eq fun op hscaling hop ↦
    (hop.ensures_apply hstep).bind_eq fun change hchange hlength ↦
      (Vec.ensures_add hpoint.iterate hlength).bind_eq fun next hadd hlength ↦
        (hnext op change next hscaling hchange hadd hlength).bind fun _ hP ↦
          (hproblem.constraints next hlength).bind fun _ _ ↦ Ensures.pure ⟨hlength, hP⟩

/-- A trial can only fault where a function of the problem does, and its end is an iterate. -/
theorem ensures_attempt (hproblem : problem.Shaped allowed) (hdim : bounds.dim = problem.dim)
    (hpoint : s.point.Shaped allowed problem.constraintCount problem.dim) :
    Ensures allowed (fun trial ↦ trial.next.length = problem.dim)
      (attempt problem options bounds s) :=
  (ensures_normalStep hpoint hdim).bind fun _ hnormal ↦
    (ensures_tangentialStep hpoint hdim hnormal).bind fun _ htangential ↦
      (Vec.ensures_add hnormal htangential).bind fun _ hstep ↦
        (ensures_evaluate (P := fun _ ↦ True) hproblem hpoint hstep
          fun _ _ next _ _ _ hnext ↦ hproblem.objective next hnext).mono fun _ h ↦ h.1

theorem shaped_start {z v : Vec α} {radius penalty : α}
    (hproblem : problem.Shaped allowed) (hz : z.length = problem.dim)
    (hv : v.length = problem.constraintCount)
    (h : start problem z v radius penalty = .ok s₀) :
    s₀.point.Shaped allowed problem.constraintCount problem.dim := by
  obtain ⟨hiterate, hfresh, -⟩ := start_eq_ok h
  exact Point.shaped_of_fresh hproblem (hiterate ▸ hz) (.inl hv) hfresh

theorem Path.shaped (hproblem : problem.Shaped allowed) (hdim : bounds.dim = problem.dim)
    (h₀ : s₀.point.Shaped allowed problem.constraintCount problem.dim)
    (path : Path problem options bounds s₀ trials s) :
    s.point.Shaped allowed problem.constraintCount problem.dim := by
  induction path with
  | start => exact h₀
  | rejected _ _ _ _ ih => exact ih
  | accepted _ _ proposed _ arrived ih =>
    have hnext := (ensures_attempt hproblem hdim ih).of_eq_ok proposed
    have hevaluated := evaluated_of_attempt proposed
    obtain ⟨hiterate, hfresh⟩ :=
      Point.fresh_of_complete hevaluated.objective hevaluated.residual (moved_eq_ok arrived).1
    exact Point.shaped_of_fresh hproblem (hiterate ▸ hnext) (.inr rfl) hfresh

/-- A solve of a shaped problem leaves an iterate, and it can only fault where a function of the
problem does. -/
theorem solve_shaped (hproblem : problem.Shaped allowed) (hdim : bounds.dim = problem.dim)
    {z v : Vec α} (hz : z.length = problem.dim) (hv : v.length = problem.constraintCount)
    (radius penalty : α) (limit : ℕ) :
    (solve problem options bounds z v radius penalty limit).2.iterate.length = problem.dim
      ∧ FaultsWithin allowed (solve problem options bounds z v radius penalty limit).1
      ∧ ∀ report, (solve problem options bounds z v radius penalty limit).1 = .ok report →
        report.multipliers.length = problem.constraintCount := by
  obtain ⟨failure, hstart, hfailed, hleft⟩ | ⟨s₀, hs₀, hconclusion⟩ :=
    solve_concludes_of_dim options hdim z v radius penalty limit
  · rw [hfailed, hleft]
    have hevaluate := Point.faultsWithin_evaluate hproblem hz hv
    rw [start_eq_error hstart] at hevaluate
    exact ⟨hz, hevaluate.error, nofun⟩
  · have h₀ := shaped_start hproblem hz hv hs₀
    refine hconclusion.of_path (P := fun w ↦ w.length = problem.dim)
      (Q := fun report ↦ report.multipliers.length = problem.constraintCount) (fun path ↦ ?_)
      (fun path ↦ ensures_attempt hproblem hdim (path.shaped hproblem hdim h₀)) fun path h ↦ ?_
    · have hpoint := path.shaped hproblem hdim h₀
      exact ⟨hpoint.iterate, hpoint.multipliers⟩
    · have hnext := (ensures_attempt hproblem hdim (path.shaped hproblem hdim h₀)).of_eq_ok h
      exact Point.faultsWithin_complete hproblem hnext (fun v (hv : none = some v) ↦ nomatch hv) _ _

end TrustRegion

end LogBarrier
