import LogBarrier.Proofs.Outcome
import LogBarrier.TrustRegion.Point

/-!
# Fresh points

A point is *fresh* if each of its parts is what the problem gives at its iterate. Points are only
ever made by `Point.complete`, and it makes fresh ones.
-/

namespace LogBarrier

variable {α : Type} [Scalar α]

namespace Point

variable {problem : InnerProblem α} {z residual v : Vec α} {objective : α} {given : Option (Vec α)}
  {point : Point α}

/-- The only failure of a completion that is not a fault is that of the projections. -/
theorem complete_eq (problem : InnerProblem α) (z : Vec α) (objective : α) (residual : Vec α)
    (given : Option (Vec α)) :
    complete problem z objective residual given =
      (Failure.ofFault (problem.gradient z) >>= fun gradient ↦
        Failure.ofFault (problem.jacobian z) >>= fun op ↦
          match Projector.ofMatrix op.toMatrix with
          | .error cause => .error (.error cause)
          | .ok projector => Failure.ofFault
              (finish problem z objective residual given gradient op.toMatrix projector)) := by
  rw [complete]
  refine bind_congr fun gradient ↦ bind_congr fun op ↦ ?_
  dsimp only
  cases Projector.ofMatrix op.toMatrix <;> rfl

/-- Everything that the point knows belongs to its iterate, and its Hessian to the multipliers. -/
structure Fresh (problem : InnerProblem α) (point : Point α) (v : Vec α) : Prop where
  objective : problem.objective point.iterate = .ok point.objective
  residual : problem.constraints point.iterate = .ok point.residual
  gradient : problem.gradient point.iterate = .ok point.gradient
  jacobian : ∃ op, problem.jacobian point.iterate = .ok op ∧ point.jacobian = op.toMatrix
  projector : Projector.ofMatrix point.jacobian = .ok point.projector
  multipliers : ∃ y, point.projector.coefficients point.gradient = .ok y
    ∧ point.multipliers = Vec.neg y
  hessian : problem.hessian point.iterate v = .ok point.hessian
  optimality : ∃ w g, point.jacobian.trMulVec point.multipliers = .ok w
    ∧ Vec.add point.gradient w = .ok g ∧ point.optimality = Vec.maxNorm g
  violation : point.violation = Vec.maxNorm point.residual

theorem iterate_of_complete (h : complete problem z objective residual given = .ok point) :
    point.iterate = z := by
  rw [complete_eq] at h
  obtain ⟨gradient, -, h⟩ := bind_eq_ok_iff.mp h
  obtain ⟨op, -, h⟩ := bind_eq_ok_iff.mp h
  split at h
  next => cases h
  next projector _ =>
    rw [ofFault_eq_ok_iff, finish] at h
    obtain ⟨y, -, h⟩ := bind_eq_ok_iff.mp h
    obtain ⟨hessian, -, h⟩ := bind_eq_ok_iff.mp h
    obtain ⟨w, -, h⟩ := bind_eq_ok_iff.mp h
    obtain ⟨g, -, h⟩ := bind_eq_ok_iff.mp h
    cases h
    rfl

theorem fresh_of_complete (hobjective : problem.objective z = .ok objective)
    (hresidual : problem.constraints z = .ok residual)
    (h : complete problem z objective residual given = .ok point) :
    point.iterate = z ∧ point.Fresh problem (given.getD point.multipliers) := by
  rw [complete_eq] at h
  obtain ⟨gradient, hgradient, h⟩ := bind_eq_ok_iff.mp h
  obtain ⟨op, hop, h⟩ := bind_eq_ok_iff.mp h
  split at h
  next => cases h
  next projector hprojector =>
    rw [ofFault_eq_ok_iff, finish] at h
    obtain ⟨y, hy, h⟩ := bind_eq_ok_iff.mp h
    obtain ⟨hessian, hhessian, h⟩ := bind_eq_ok_iff.mp h
    obtain ⟨w, hw, h⟩ := bind_eq_ok_iff.mp h
    obtain ⟨g, hg, h⟩ := bind_eq_ok_iff.mp h
    cases h
    exact ⟨rfl, hobjective, hresidual, ofFault_eq_ok_iff.mp hgradient,
      ⟨op, ofFault_eq_ok_iff.mp hop, rfl⟩, hprojector, ⟨y, hy, rfl⟩, hhessian, ⟨w, g, hw, hg, rfl⟩,
      rfl⟩

theorem fresh_of_evaluate (h : evaluate problem z v = .ok point) :
    point.iterate = z ∧ point.Fresh problem v := by
  obtain ⟨objective, hobjective, h⟩ := bind_eq_ok_iff.mp h
  obtain ⟨residual, hresidual, h⟩ := bind_eq_ok_iff.mp h
  exact fresh_of_complete (ofFault_eq_ok_iff.mp hobjective) (ofFault_eq_ok_iff.mp hresidual) h

theorem evaluate_eq_ok {g y w sum : Vec α} {op h : Operator α} {projector : Projector α}
    (hobjective : problem.objective z = .ok objective)
    (hresidual : problem.constraints z = .ok residual) (hgradient : problem.gradient z = .ok g)
    (hjacobian : problem.jacobian z = .ok op)
    (hprojector : Projector.ofMatrix op.toMatrix = .ok projector)
    (hy : projector.coefficients g = .ok y) (hhessian : problem.hessian z v = .ok h)
    (hw : op.toMatrix.trMulVec (Vec.neg y) = .ok w) (hsum : Vec.add g w = .ok sum) :
    evaluate problem z v = .ok {
      iterate := z
      objective, residual, projector
      gradient := g
      jacobian := op.toMatrix
      multipliers := Vec.neg y
      hessian := h
      optimality := Vec.maxNorm sum
      violation := Vec.maxNorm residual } := by
  have hevaluate : evaluate problem z v =
      Failure.ofFault (problem.objective z) >>= fun objective ↦
        Failure.ofFault (problem.constraints z) >>= fun residual ↦
          complete problem z objective residual (some v) := rfl
  rw [hevaluate, hobjective, hresidual]
  simp only [Failure.ofFault, ok_bind, complete_eq, hgradient, hjacobian, hprojector, finish, hy,
    Option.getD_some, hhessian, hw, hsum]
  rfl

theorem ofMatrix_of_complete_eq_error {cause : SolverError}
    (h : complete problem z objective residual given = .error (.error cause)) :
    ∃ op, problem.jacobian z = .ok op ∧ Projector.ofMatrix op.toMatrix = .error cause := by
  rw [complete_eq, bind_ofFault_eq_error_iff] at h
  obtain ⟨gradient, hgradient, h⟩ := h
  obtain ⟨op, hop, h⟩ := bind_ofFault_eq_error_iff.mp h
  refine ⟨op, hop, ?_⟩
  split at h
  next cause' hcause =>
    cases h
    exact hcause
  next => exact absurd h ofFault_ne_error

theorem complete_ne_unfinished :
    complete problem z objective residual given ≠ .error .unfinished := by
  rw [complete_eq]
  refine bind_ofFault_ne_unfinished fun gradient ↦ bind_ofFault_ne_unfinished fun op ↦ ?_
  split
  · exact nofun
  · exact ofFault_ne_unfinished

/-- An iterate is completed if nothing faults and its Jacobian has projections. -/
theorem exists_complete {op : Operator α} {p : Projector α}
    (hfaults : FaultsWithin (fun _ ↦ False) (complete problem z objective residual given))
    (hjacobian : problem.jacobian z = .ok op) (hprojector : Projector.ofMatrix op.toMatrix = .ok p) :
    ∃ point, complete problem z objective residual given = .ok point := by
  cases h : complete problem z objective residual given with
  | ok point => exact ⟨point, rfl⟩
  | error failure =>
    cases failure with
    | fault cause => exact (hfaults cause h).elim
    | unfinished => exact absurd h complete_ne_unfinished
    | error cause =>
      obtain ⟨op', hop', herror⟩ := ofMatrix_of_complete_eq_error h
      obtain rfl := Except.ok.inj (hjacobian.symm.trans hop')
      rw [hprojector] at herror
      cases herror

theorem evaluate_ne_unfinished : evaluate problem z v ≠ .error .unfinished :=
  bind_ofFault_ne_unfinished fun _ ↦ bind_ofFault_ne_unfinished fun _ ↦ complete_ne_unfinished

theorem ofMatrix_of_evaluate_eq_error {cause : SolverError}
    (h : evaluate problem z v = .error (.error cause)) :
    ∃ op, problem.jacobian z = .ok op ∧ Projector.ofMatrix op.toMatrix = .error cause := by
  obtain ⟨objective, -, h⟩ := bind_ofFault_eq_error_iff.mp h
  obtain ⟨residual, -, h⟩ := bind_ofFault_eq_error_iff.mp h
  exact ofMatrix_of_complete_eq_error h

end Point

end LogBarrier
