import LogBarrier.Proofs.TrustRegion.Conclusions
import LogBarrier.Proofs.TrustRegion.Step

/-!
# Searches over the real numbers

If a problem answers real numbers with real numbers, then every point of a search consists of real
numbers, and every trial step is within the bounds. Nothing else is asked of the functions of the
problem: they may fault wherever they want, and they need not be derivatives of each other.
-/

namespace LogBarrier

open Extended

/-- Where the functions of the problem give something at real numbers, it consists of real
numbers. -/
structure InnerProblem.RealValued (problem : InnerProblem Extended) : Prop where
  gradient : ∀ z g, Vec.IsReal z → problem.gradient z = .ok g → Vec.IsReal g
  constraints : ∀ z c, Vec.IsReal z → problem.constraints z = .ok c → Vec.IsReal c
  jacobian : ∀ z op, Vec.IsReal z → problem.jacobian z = .ok op → op.IsReal
  hessian : ∀ z v op, Vec.IsReal z → Vec.IsReal v → problem.hessian z v = .ok op → op.IsReal
  scaling : ∀ z op, Vec.IsReal z → problem.scaling z = .ok op → op.IsReal

/-- Where the functions of the problem give something at the iterate, it consists of real
numbers. -/
structure InnerProblem.RealAt (problem : InnerProblem Extended) (z : Vec Extended) : Prop where
  gradient : ∀ g, problem.gradient z = .ok g → Vec.IsReal g
  constraints : ∀ c, problem.constraints z = .ok c → Vec.IsReal c
  jacobian : ∀ op, problem.jacobian z = .ok op → op.IsReal
  hessian : ∀ v op, Vec.IsReal v → problem.hessian z v = .ok op → op.IsReal
  scaling : ∀ op, problem.scaling z = .ok op → op.IsReal

variable {problem : InnerProblem Extended}

theorem InnerProblem.RealValued.realAt {z : Vec Extended} (h : problem.RealValued)
    (hz : Vec.IsReal z) : problem.RealAt z where
  gradient g := h.gradient z g hz
  constraints c := h.constraints z c hz
  jacobian op := h.jacobian z op hz
  hessian v op := h.hessian z v op hz
  scaling op := h.scaling z op hz

/-- A fresh point at a real iterate consists of real numbers if the problem is real there. -/
theorem Point.isReal_of_realAt {point : Point Extended} {v : Vec Extended}
    (hproblem : problem.RealAt point.iterate) (hz : Vec.IsReal point.iterate)
    (hv : Vec.IsReal v ∨ v = point.multipliers) (h : point.Fresh problem v) : point.IsReal := by
  have hgradient := hproblem.gradient _ h.gradient
  obtain ⟨op, hop, hdense⟩ := h.jacobian
  have hjacobian : point.jacobian.IsReal := hdense ▸ (hproblem.jacobian _ hop).toMatrix
  have hprojector := Projector.isReal_of_ofMatrix hjacobian h.projector
  obtain ⟨y, hy, hneg⟩ := h.multipliers
  have hmultipliers : Vec.IsReal point.multipliers :=
    hneg ▸ ((Projector.yields_coefficients hprojector hgradient).of_eq_ok hy).neg
  exact {
    iterate := hz
    residual := hproblem.constraints _ h.residual
    gradient := hgradient
    jacobian := hjacobian
    projector := hprojector
    multipliers := hmultipliers
    hessian := hproblem.hessian _ _ (hv.elim id fun heq ↦ heq ▸ hmultipliers) h.hessian }

theorem Point.isReal_of_fresh {point : Point Extended} {v : Vec Extended}
    (hproblem : problem.RealValued) (hz : Vec.IsReal point.iterate)
    (hv : Vec.IsReal v ∨ v = point.multipliers) (h : point.Fresh problem v) : point.IsReal :=
  isReal_of_realAt (hproblem.realAt hz) hz hv h

theorem Trial.isReal_next_of_realAt {point : Point Extended} {trial : Trial Extended}
    (hproblem : problem.RealAt point.iterate) (hz : Vec.IsReal point.iterate)
    (hstep : Vec.IsReal trial.step) (h : trial.Evaluated problem point) :
    Vec.IsReal trial.next := by
  obtain ⟨op, change, hop, hchange, hnext⟩ := h.next
  have hreal := (Operator.yields_apply (hproblem.scaling _ hop) hstep).of_eq_ok hchange
  exact (Vec.yields_add hz hreal).of_eq_ok hnext

theorem Trial.isReal_next {point : Point Extended} {trial : Trial Extended}
    (hproblem : problem.RealValued) (hz : Vec.IsReal point.iterate) (hstep : Vec.IsReal trial.step)
    (h : trial.Evaluated problem point) : Vec.IsReal trial.next :=
  isReal_next_of_realAt (hproblem.realAt hz) hz hstep h

namespace TrustRegion

variable {options : TrustRegionOptions Extended} {bounds : StepBox Extended}
  {z v : Vec Extended} {radius penalty : Extended} {s s₀ : State Extended}
  {trials : List (Trial Extended)} {trial : Trial Extended}

theorem isReal_start (hproblem : problem.RealValued) (hz : Vec.IsReal z) (hv : Vec.IsReal v)
    (h : start problem z v radius penalty = .ok s₀) : s₀.point.IsReal := by
  obtain ⟨hiterate, hfresh, -⟩ := start_eq_ok h
  exact Point.isReal_of_fresh hproblem (hiterate ▸ hz) (.inl hv) hfresh

theorem isReal_moved {s' : State Extended} (hproblem : problem.RealValued)
    (hnext : Vec.IsReal trial.next) (hevaluated : trial.Evaluated problem s.point)
    (h : moved problem options s trial = .ok s') : s'.point.IsReal := by
  obtain ⟨hiterate, hfresh⟩ :=
    Point.fresh_of_complete hevaluated.objective hevaluated.residual (moved_eq_ok h).1
  exact Point.isReal_of_fresh hproblem (hiterate ▸ hnext) (.inr rfl) hfresh

theorem Path.isReal (hproblem : problem.RealValued) (hshare : options.SharesBounds)
    (hbounds : bounds.AdmitsZero) (h₀ : s₀.point.IsReal)
    (path : Path problem options bounds s₀ trials s) : s.point.IsReal := by
  induction path with
  | start => exact h₀
  | rejected _ _ _ _ ih => exact ih
  | accepted _ _ proposed _ arrived ih =>
    have hevaluated := evaluated_of_attempt proposed
    have hstep := (contains_of_attempt hshare hbounds ih proposed).1
    exact isReal_moved hproblem (Trial.isReal_next hproblem ih.iterate hstep hevaluated) hevaluated
      arrived

theorem Path.contains_step (hproblem : problem.RealValued)
    (hshare : options.SharesBounds) (hbounds : bounds.AdmitsZero)
    (h₀ : s₀.point.IsReal) (path : Path problem options bounds s₀ trials s)
    (h : attempt problem options bounds s = .ok trial) :
    Vec.IsReal trial.step ∧ bounds.Contains trial.step :=
  contains_of_attempt hshare hbounds (path.isReal hproblem hshare hbounds h₀) h

end TrustRegion

end LogBarrier
