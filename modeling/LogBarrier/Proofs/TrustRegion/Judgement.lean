import LogBarrier.Proofs.TrustRegion.Fresh
import LogBarrier.TrustRegion.Trial

/-!
# The judgement of a trial

A trial records what was found at its end and how it was judged. Both are read off its evaluation
once, and nothing later looks into the evaluation again.

## Merit

The merit function with the penalty `ρ` is `f(z) + ρ ‖c(z)‖`. A trial compares its two ends at the
penalty that it was given or has raised, never at two different ones.
-/

namespace LogBarrier

variable {α : Type} [Scalar α]

open Scalar

def InnerProblem.merit (problem : InnerProblem α) (penalty : α) (z : Vec α) : Except Fault α := do
  let objective ← problem.objective z
  let residual ← problem.constraints z
  return Trial.merit penalty objective residual

namespace Trial

/-- What an evaluated trial knows about its end. -/
structure Evaluated (problem : InnerProblem α) (point : Point α) (trial : Trial α) : Prop where
  next : ∃ scaling change, problem.scaling point.iterate = .ok scaling
    ∧ scaling.apply trial.step = .ok change ∧ Vec.add point.iterate change = .ok trial.next
  objective : problem.objective trial.next = .ok trial.objective
  residual : problem.constraints trial.next = .ok trial.residual

/-- How an evaluated trial was judged, given the penalty at the start of its round. -/
structure Judged (options : TrustRegionOptions α) (point : Point α) (penalty : α)
    (trial : Trial α) : Prop where
  length : trial.length = Vec.norm trial.step
  model : ∃ image curvature slope, point.hessian.apply trial.step = .ok image
    ∧ Vec.dot image trial.step = .ok curvature ∧ Vec.dot point.gradient trial.step = .ok slope
    ∧ trial.model = 0.5 * curvature + slope
  gain : ∃ image linearized, point.jacobian.mulVec trial.step = .ok image
    ∧ Vec.add image point.residual = .ok linearized
    ∧ trial.feasibilityGain =
      maxNum (Vec.norm point.residual - Vec.norm linearized) minFeasibilityGain
  penalty : trial.penalty = raisedPenalty options penalty trial.model trial.feasibilityGain
  predicted : trial.predicted = -trial.model + trial.penalty * trial.feasibilityGain
  actual : trial.actual = point.objective + trial.penalty * Vec.norm point.residual
    - (trial.objective + trial.penalty * Vec.norm trial.residual)

variable {problem : InnerProblem α} {options : TrustRegionOptions α} {point : Point α}
  {penalty : α} {trial : Trial α}

theorem evaluate_eq_ok {step : Vec α}
    (h : evaluate problem options point penalty step = .ok trial) :
    trial.step = step ∧ trial.Evaluated problem point
      ∧ trial.Judged options point penalty := by
  obtain ⟨image, himage, h⟩ := bind_eq_ok_iff.mp h
  obtain ⟨curvature, hcurvature, h⟩ := bind_eq_ok_iff.mp h
  obtain ⟨slope, hslope, h⟩ := bind_eq_ok_iff.mp h
  obtain ⟨change, hchange, h⟩ := bind_eq_ok_iff.mp h
  obtain ⟨linearized, hlinearized, h⟩ := bind_eq_ok_iff.mp h
  obtain ⟨scaling, hscaling, h⟩ := bind_eq_ok_iff.mp h
  obtain ⟨scaled, hscaled, h⟩ := bind_eq_ok_iff.mp h
  obtain ⟨next, hnext, h⟩ := bind_eq_ok_iff.mp h
  obtain ⟨objective, hobjective, h⟩ := bind_eq_ok_iff.mp h
  obtain ⟨residual, hresidual, h⟩ := bind_eq_ok_iff.mp h
  cases h
  exact ⟨rfl, ⟨⟨scaling, scaled, hscaling, hscaled, hnext⟩, hobjective, hresidual⟩, {
    length := rfl
    model := ⟨image, curvature, slope, himage, hcurvature, hslope, rfl⟩
    gain := ⟨change, linearized, hchange, hlinearized, rfl⟩
    penalty := rfl
    predicted := rfl
    actual := rfl }⟩

theorem isAccepted_iff : trial.isAccepted options = true ↔ options.acceptableRatio ≤ trial.ratio :=
  decide_eq_true_iff

/-! ## The merit at the two ends -/

theorem Evaluated.merit (h : trial.Evaluated problem point) (penalty : α) :
    problem.merit penalty trial.next =
      .ok (trial.objective + penalty * Vec.norm trial.residual) := by
  rw [InnerProblem.merit, h.objective, h.residual]
  rfl

end Trial

theorem Point.Fresh.merit {problem : InnerProblem α} {point : Point α} {v : Vec α}
    (h : point.Fresh problem v) (penalty : α) :
    problem.merit penalty point.iterate =
      .ok (point.objective + penalty * Vec.norm point.residual) := by
  rw [InnerProblem.merit, h.objective, h.residual]
  rfl

end LogBarrier
