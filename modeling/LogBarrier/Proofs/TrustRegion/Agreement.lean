import LogBarrier.Proofs.TrustRegion.RealSteps

/-!
# Problems that agree

A search reads its problem through a few functions, and the Jacobian through its dense matrix. So
two problems that give the same answers at real points, where their Jacobians may be different
operators, are solved in the same way: the same steps are tried and taken, the same reports are
made, and the same journal is kept.

The searches are compared round by round. They make the same trial because they are at the same
point, and the trial ends at a real point again, where the problems agree.
-/

namespace LogBarrier

open Extended

/-- The problems give the same answers at real points. Their Jacobians need not be the same, but
they have the same dense matrix. -/
structure InnerProblem.Agrees (problem problem' : InnerProblem Extended) : Prop where
  dim : problem.dim = problem'.dim
  objective : problem.objective = problem'.objective
  gradient : problem.gradient = problem'.gradient
  constraints : ∀ z, Vec.IsReal z → problem.constraints z = problem'.constraints z
  jacobian : ∀ z, Operator.toMatrix <$> problem.jacobian z =
    Operator.toMatrix <$> problem'.jacobian z
  hessian : problem.hessian = problem'.hessian
  scaling : problem.scaling = problem'.scaling
  stop : problem.stop = problem'.stop

namespace Run

variable {α β γ : Type}

theorem run_bind_congr {m : Run α β} {f f' : β → Run α γ} {j : Journal α}
    (h : ∀ b, (m.run j).1 = .ok b → ∀ j', (f b).run j' = (f' b).run j') :
    (m >>= f).run j = (m >>= f').run j := by
  rw [run_bind, run_bind]
  rcases hm : m.run j with ⟨_ | b, j'⟩
  · rfl
  · exact h b (congrArg Prod.fst hm) j'

theorem liftFault_bind_congr {e : Except Fault β} {f f' : β → Run α γ}
    (h : ∀ b, e = .ok b → f b = f' b) : (liftM e >>= f : Run α γ) = liftM e >>= f' := by
  cases e with
  | error cause => rfl
  | ok b => exact h b rfl

end Run

/-! ## Points and trials -/

variable {problem problem' : InnerProblem Extended} {options : TrustRegionOptions Extended}
  {bounds : StepBox Extended} {z v : Vec Extended} {radius penalty : Extended}

namespace InnerProblem.Agrees

theorem complete_eq (h : problem.Agrees problem') (z : Vec Extended) (objective : Extended)
    (residual : Vec Extended) (given : Option (Vec Extended)) :
    Point.complete problem z objective residual given =
      Point.complete problem' z objective residual given := by
  have hfinish : Point.finish problem = Point.finish problem' := by
    funext z objective residual given gradient jacobian projector
    rw [Point.finish, Point.finish, h.hessian]
  rw [Point.complete_eq, Point.complete_eq, h.gradient, hfinish]
  refine bind_congr fun gradient ↦ bind_congr_map (g := Operator.toMatrix) ?_ fun op op' hop ↦ ?_
  · rw [map_ofFault, map_ofFault, h.jacobian]
  · rw [hop]

theorem start_eq (h : problem.Agrees problem') (hz : Vec.IsReal z) (v : Vec Extended)
    (radius penalty : Extended) :
    TrustRegion.start problem z v radius penalty =
      TrustRegion.start problem' z v radius penalty := by
  rw [TrustRegion.start, TrustRegion.start, Point.evaluate, Point.evaluate, h.objective,
    h.constraints z hz]
  simp only [h.complete_eq]

theorem evaluate_eq (h : problem.Agrees problem') (hproblem : problem.RealValued)
    {point : Point Extended} (hz : Vec.IsReal point.iterate) {step : Vec Extended}
    (hstep : Vec.IsReal step) (penalty : Extended) :
    Trial.evaluate problem options point penalty step =
      Trial.evaluate problem' options point penalty step := by
  rw [Trial.evaluate, Trial.evaluate, ← h.scaling, ← h.objective]
  refine bind_congr fun image ↦ bind_congr fun curvature ↦ bind_congr fun slope ↦
    bind_congr fun product ↦ bind_congr fun linearized ↦ ?_
  refine bind_congr_of_ok fun op hop ↦ bind_congr_of_ok fun change hchange ↦
    bind_congr_of_ok fun next hnext ↦ ?_
  have hreal : Vec.IsReal next := (Vec.yields_add hz ((Operator.yields_apply
    (hproblem.scaling _ _ hz hop) hstep).of_eq_ok hchange)).of_eq_ok hnext
  rw [h.constraints next hreal]

end InnerProblem.Agrees

/-! ## Rounds -/

namespace TrustRegion

variable {s : State Extended} {trial : Trial Extended}

theorem propose_eq_of_agrees (h : problem.Agrees problem') (hproblem : problem.RealValued)
    (hbounds : bounds.AdmitsReals) (hs : s.point.IsReal) :
    propose problem options bounds s = propose problem' options bounds s := by
  rw [propose, propose]
  refine Run.liftFault_bind_congr fun normal hnormal ↦ bind_congr fun _ ↦ ?_
  refine Run.liftFault_bind_congr fun tangential htangential ↦ bind_congr fun _ ↦ ?_
  refine Run.liftFault_bind_congr fun step hstep ↦ ?_
  rw [h.evaluate_eq hproblem hs.iterate (isReal_step hbounds hs hnormal htangential hstep)]

theorem settle_eq_of_agrees (h : problem.Agrees problem') (s : State Extended)
    (trial : Trial Extended) :
    settle problem options s trial = settle problem' options s trial := by
  have hmoved : moved problem options s trial = moved problem' options s trial := by
    rw [moved, moved, h.complete_eq]
  rw [settle, settle, hmoved]

theorem isReal_of_settle (hproblem : problem.RealValued) (hbounds : bounds.AdmitsReals)
    (hs : s.point.IsReal) (proposed : attempt problem options bounds s = .ok trial)
    {j : Journal Extended} {s' : State Extended}
    (h : ((settle problem options s trial).run j).1 = .ok s') : s'.point.IsReal := by
  cases htaken : trial.isAccepted options with
  | true =>
    rw [(settle_ends_of_accepted htaken).1] at h
    exact isReal_moved hproblem (isReal_next_of_attempt hproblem hbounds hs proposed)
      (evaluated_of_attempt proposed) h
  | false =>
    rw [(settle_ends_of_rejected htaken).1] at h
    cases h
    exact hs

/-! ## Searches and solves -/

theorem search_eq_of_agrees (h : problem.Agrees problem') (hproblem : problem.RealValued)
    (hbounds : bounds.AdmitsReals) (left : ℕ) (hs : s.point.IsReal) (j : Journal Extended) :
    (search problem options bounds left s).run j =
      (search problem' options bounds left s).run j := by
  induction left generalizing s j with
  | zero => rfl
  | succ left ih =>
    have hconsult : Run.consult problem s.report = Run.consult problem' s.report := by
      rw [Run.consult, Run.consult, h.stop]
    rw [search, search, hconsult, propose_eq_of_agrees h hproblem hbounds hs]
    refine Run.run_bind_congr fun stop _ j₁ ↦ ?_
    split_ifs
    · rfl
    · rfl
    refine Run.run_bind_congr fun trial htrial j₂ ↦ ?_
    rw [← propose_eq_of_agrees h hproblem hbounds hs] at htrial
    rw [← settle_eq_of_agrees h]
    refine Run.run_bind_congr fun s' hs' j₃ ↦ ?_
    exact ih (isReal_of_settle hproblem hbounds hs (attempt_eq_of_propose htrial) hs') j₃

/-- **Agreement.** Problems that agree at real points are solved in the same way. -/
theorem solve_eq_of_agrees (h : problem.Agrees problem') (hproblem : problem.RealValued)
    (hbounds : bounds.AdmitsReals) (hz : Vec.IsReal z) (hv : Vec.IsReal v)
    (radius penalty : Extended) (limit : ℕ) :
    solve problem options bounds z v radius penalty limit =
      solve problem' options bounds z v radius penalty limit := by
  rw [solve_eq, solve_eq, h.dim, ← h.start_eq hz]
  refine Run.run_bind_congr fun _ _ j₁ ↦ Run.run_bind_congr fun s hs j₂ ↦ ?_
  exact search_eq_of_agrees h hproblem hbounds limit (isReal_start hproblem hz hv hs) j₂

end TrustRegion

end LogBarrier
