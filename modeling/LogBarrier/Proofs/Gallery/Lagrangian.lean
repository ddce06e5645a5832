import LogBarrier.Proofs.Barrier.RowRank
import LogBarrier.Proofs.Barrier.ScaledValue
import LogBarrier.Proofs.Exact.Derivatives
import LogBarrier.Proofs.Exact.Matrices

/-!
# Problems with exact derivatives

Objective and constraints answer their derivatives by formulas of their own, and the second
derivatives of all of them are combined in the Hessian of the Lagrangian. The derivatives are exact
if each of the formulas is the derivative of the values that are answered.

## How it is shown

A problem is written down once as functions of a tuple, with gradients and Hessians that follow from
the rules. What remains is a comparison of formulas: the values, the gradients and the rows of the
Jacobians have to be those of the functions, and the Hessian has to be the sum of their Hessians
with the multipliers as weights.
-/

namespace LogBarrier

open Extended Matrix Topology

variable {n : ℕ} {x v w : Vec Extended}

/-! ## Derivatives of constraints -/

/-- The value of the constraint with index `i`, as a function of the variables. -/
noncomputable def Constraints.valueAt (constraints : Constraints Extended) (i : ℕ)
    (u : Fin n → ℝ) : ℝ :=
  answered (constraints.value (Vec.ofTuple u) >>= fun c ↦ Vec.entry c i)

/-- The Jacobian that the constraints answer at the point `x` in `n` variables has their gradients
as its rows. Close to this point, all values have to be real numbers. -/
structure Constraints.DifferentiableAt (constraints : Constraints Extended) (n : ℕ)
    (x : Vec Extended) (J : Operator Extended) : Prop where
  answers : constraints.AnswersJacobian n x J
  value_eq : ∀ᶠ u in 𝓝 (Vec.tuple n x),
    ∃ c, constraints.value (Vec.ofTuple u) = .ok c ∧ Vec.InSpace constraints.count c
  hasFDerivAt : ∀ i < constraints.count,
    HasFDerivAt (constraints.valueAt i) (dotWith fun j : Fin n ↦ J.coeff i j) (Vec.tuple n x)

/-! ## The Lagrangian -/

namespace Objective

/-- The Lagrangian with the multipliers `v` of the equalities and `w` of the inequalities, which
count as zero where they are missing. -/
noncomputable def lagrangian (objective : Objective Extended)
    (equality inequality : Constraints Extended) (v w : Vec Extended) (u : Fin n → ℝ) : ℝ :=
  answered (objective.value (Vec.ofTuple u))
    + ∑ i ∈ Finset.range equality.count, v.coord i * equality.valueAt i u
    + ∑ i ∈ Finset.range inequality.count, w.coord i * inequality.valueAt i u

/-- The Hessian that the objective answers is symmetric, and it is the second derivative of the
Lagrangian at the point `x` in `n` variables. -/
structure TwiceDifferentiableAt (objective : Objective Extended)
    (equality inequality : Constraints Extended) (n : ℕ) (x v w : Vec Extended)
    (H : Operator Extended) : Prop where
  hessian_eq : objective.hessian x v w = .ok H
  isReal : H.IsReal
  shape : H.HasShape n n
  symmetric : (H.asMatrix n).IsSymm
  differentiable : ∀ᶠ u in 𝓝 (Vec.tuple n x), ∃ L' : (Fin n → ℝ) →L[ℝ] ℝ,
    HasFDerivAt (objective.lagrangian equality inequality v w) L' u
  hasFDerivAt : HasFDerivAt (fderiv ℝ (objective.lagrangian equality inequality v w))
    (dotWith ∘L mulVecBy (H.asMatrix n)) (Vec.tuple n x)

/-- At every point in `n` variables and for all multipliers, the derivatives that are answered are
those of the values. -/
structure DerivesExactly (objective : Objective Extended)
    (equality inequality : Constraints Extended) (n : ℕ) : Prop where
  gradient : ∀ x, Vec.InSpace n x → ∃ g, objective.DifferentiableAt n x g
  equalityJacobian : ∀ x, Vec.InSpace n x → ∃ J, equality.DifferentiableAt n x J
  inequalityJacobian : ∀ x, Vec.InSpace n x → ∃ J, inequality.DifferentiableAt n x J
  hessian : ∀ x v w, Vec.InSpace n x → Vec.IsReal v → Vec.IsReal w →
    ∃ H, objective.TwiceDifferentiableAt equality inequality n x v w H

end Objective

/-! ## Problems that are given by functions -/

/-- The constraints answer the values of the functions, and the Jacobian of their gradients. -/
structure Constraints.GivenBy (constraints : Constraints Extended) (n : ℕ)
    (c : ℕ → (Fin n → ℝ) → ℝ) (g : ℕ → (Fin n → ℝ) → Fin n → ℝ)
    (H : ℕ → (Fin n → ℝ) → Matrix (Fin n) (Fin n) ℝ) : Prop where
  value_eq : ∀ u : Fin n → ℝ, constraints.value (Vec.ofTuple u) =
    .ok (Vec.ofCoords constraints.count fun i ↦ c i u)
  jacobian_eq : ∀ u : Fin n → ℝ, ∃ J : DenseMatrix Extended,
    constraints.jacobian (Vec.ofTuple u) = .ok (.dense J) ∧ J.InSpace constraints.count n
      ∧ ∀ i < constraints.count, (fun j : Fin n ↦ J.coeff i j) = g i u
  derivatives : ∀ i, HasDerivatives (c i) (g i) (H i)

namespace Constraints.GivenBy

variable {constraints : Constraints Extended} {c : ℕ → (Fin n → ℝ) → ℝ}
  {g : ℕ → (Fin n → ℝ) → Fin n → ℝ} {H : ℕ → (Fin n → ℝ) → Matrix (Fin n) (Fin n) ℝ}
  (h : constraints.GivenBy n c g H)

include h

theorem valueAt_eq {i : ℕ} (hi : i < constraints.count) : constraints.valueAt i = c i := by
  funext u
  rw [valueAt, h.value_eq, ok_bind, Vec.entry, Vec.getElem?_ofCoords hi]
  rfl

theorem differentiableAt (hx : Vec.InSpace n x) : ∃ J, constraints.DifferentiableAt n x J := by
  obtain ⟨u, rfl⟩ := hx.exists_eq_ofTuple
  obtain ⟨J, hJ, hspace, hrows⟩ := h.jacobian_eq u
  refine ⟨.dense J, ?_⟩
  constructor
  case answers => exact ⟨hJ, .dense hspace.isReal, .dense J, hspace.rows_eq, hspace.cols_eq⟩
  case value_eq => exact .of_forall fun u ↦ ⟨_, h.value_eq u, Vec.inSpace_ofCoords _ _⟩
  case hasFDerivAt =>
    intro i hi
    have hrow : (fun j : Fin n ↦ (Operator.dense J).coeff i j) = g i u := hrows i hi
    rw [hrow, h.valueAt_eq hi, Vec.tuple_ofTuple]
    exact (h.derivatives i).gradient u

end Constraints.GivenBy

theorem Constraints.givenBy_none (n : ℕ) : Constraints.none.GivenBy n (fun _ _ ↦ 0) (fun _ _ ↦ 0)
    fun _ _ ↦ 0 where
  value_eq _ := rfl
  jacobian_eq u := ⟨_, rfl, ⟨DenseMatrix.isReal_zeros _ _, rfl, (Vec.inSpace_ofTuple u).length_eq⟩,
    fun _ hi ↦ absurd hi (Nat.not_lt_zero _)⟩
  derivatives _ := HasDerivatives.const n 0

/-- The objective answers the values of the function and its gradients. -/
structure Objective.GivenBy (objective : Objective Extended) (n : ℕ) (f : (Fin n → ℝ) → ℝ)
    (g : (Fin n → ℝ) → Fin n → ℝ) (H : (Fin n → ℝ) → Matrix (Fin n) (Fin n) ℝ) : Prop where
  value_eq : ∀ u : Fin n → ℝ, objective.value (Vec.ofTuple u) = .ok (real (f u))
  gradient_eq : ∀ u : Fin n → ℝ, objective.gradient (Vec.ofTuple u) = .ok (Vec.ofTuple (g u))
  derivatives : HasDerivatives f g H

namespace Objective.GivenBy

variable {objective : Objective Extended} {equality inequality : Constraints Extended}
  {f : (Fin n → ℝ) → ℝ} {g : (Fin n → ℝ) → Fin n → ℝ}
  {H : (Fin n → ℝ) → Matrix (Fin n) (Fin n) ℝ} {c d : ℕ → (Fin n → ℝ) → ℝ}
  {c' d' : ℕ → (Fin n → ℝ) → Fin n → ℝ} {C D : ℕ → (Fin n → ℝ) → Matrix (Fin n) (Fin n) ℝ}
  (h : objective.GivenBy n f g H) (hc : equality.GivenBy n c c' C)
  (hd : inequality.GivenBy n d d' D)

include h

theorem differentiableAt (hx : Vec.InSpace n x) : ∃ g, objective.DifferentiableAt n x g := by
  obtain ⟨u, rfl⟩ := hx.exists_eq_ofTuple
  have hvalue : (fun u : Fin n → ℝ ↦ answered (objective.value (Vec.ofTuple u))) = f := by
    funext u
    rw [h.value_eq]
    rfl
  refine ⟨Vec.ofTuple (g u), ?_⟩
  constructor
  case gradient_eq => exact h.gradient_eq u
  case inSpace => exact Vec.inSpace_ofTuple _
  case value_eq => exact .of_forall fun u ↦ ⟨_, h.value_eq u⟩
  case hasFDerivAt =>
    rw [hvalue, Vec.tuple_ofTuple, Vec.tuple_ofTuple]
    exact ⟨_, h.derivatives.gradient u, fun _ ↦ rfl⟩

include hc hd

theorem lagrangian_eq (v w : Vec Extended) (u : Fin n → ℝ) :
    objective.lagrangian equality inequality v w u =
      f u + ∑ i ∈ Finset.range equality.count, v.coord i * c i u
        + ∑ i ∈ Finset.range inequality.count, w.coord i * d i u := by
  rw [lagrangian, h.value_eq]
  refine congrArg₂ (· + ·) (congrArg₂ (· + ·) rfl ?_) ?_
  · exact Finset.sum_congr rfl fun i hi ↦ by rw [hc.valueAt_eq (Finset.mem_range.mp hi)]
  · exact Finset.sum_congr rfl fun i hi ↦ by rw [hd.valueAt_eq (Finset.mem_range.mp hi)]

theorem hasDerivatives_lagrangian (v w : Vec Extended) :
    HasDerivatives (objective.lagrangian equality inequality v w)
      (fun u ↦ g u + ∑ i ∈ Finset.range equality.count, v.coord i • c' i u
        + ∑ i ∈ Finset.range inequality.count, w.coord i • d' i u)
      fun u ↦ H u + ∑ i ∈ Finset.range equality.count, v.coord i • C i u
        + ∑ i ∈ Finset.range inequality.count, w.coord i • D i u := by
  have hequality := HasDerivatives.sum (Finset.range equality.count)
    fun i ↦ (hc.derivatives i).const_mul (v.coord i)
  have hinequality := HasDerivatives.sum (Finset.range inequality.count)
    fun i ↦ (hd.derivatives i).const_mul (w.coord i)
  exact ((h.derivatives.add hequality).add hinequality).congr (h.lagrangian_eq hc hd v w)
    (fun _ ↦ rfl) fun _ ↦ rfl

/-- The derivatives are exact if the Hessian is the weighted sum of the Hessians. -/
theorem derivesExactly (hhessian : ∀ (u : Fin n → ℝ) (v w : Vec Extended), Vec.IsReal v →
      Vec.IsReal w → ∃ k : DenseMatrix Extended,
        objective.hessian (Vec.ofTuple u) v w = .ok (.dense k) ∧ k.InSpace n n
          ∧ k.asMatrix n n = H u + ∑ i ∈ Finset.range equality.count, v.coord i • C i u
            + ∑ i ∈ Finset.range inequality.count, w.coord i • D i u) :
    objective.DerivesExactly equality inequality n where
  gradient _ hx := h.differentiableAt hx
  equalityJacobian _ hx := hc.differentiableAt hx
  inequalityJacobian _ hx := hd.differentiableAt hx
  hessian x v w hx hv hw := by
    obtain ⟨u, rfl⟩ := hx.exists_eq_ofTuple
    obtain ⟨k, hk, hspace, hmatrix⟩ := hhessian u v w hv hw
    have hderivatives := h.hasDerivatives_lagrangian hc hd v w
    have hdense : (Operator.dense k).asMatrix n = k.asMatrix n n := rfl
    refine ⟨.dense k, ?_⟩
    constructor
    case hessian_eq => exact hk
    case isReal => exact .dense hspace.isReal
    case shape => exact ⟨.dense k, hspace.rows_eq, hspace.cols_eq⟩
    case symmetric =>
      rw [hdense, hmatrix]
      exact hderivatives.symmetric u
    case differentiable => exact .of_forall fun u ↦ ⟨_, hderivatives.gradient u⟩
    case hasFDerivAt =>
      rw [hdense, hmatrix, Vec.tuple_ofTuple]
      exact hderivatives.hasFDerivAt_fderiv u

end Objective.GivenBy

end LogBarrier
