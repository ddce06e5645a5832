import LogBarrier.Proofs.Exact.Euclidean
import Mathlib.Analysis.Calculus.FDeriv.Bilinear
import Mathlib.Analysis.Calculus.FDeriv.Mul
import Mathlib.Analysis.Calculus.FDeriv.Pi
import Mathlib.Analysis.Normed.Module.FiniteDimension

/-!
# Gradients and Hessians

A function of a tuple comes with its gradient and its Hessian, both as functions of the point. Such
triples are closed under sums, multiples and products, so those of a polynomial are found by the
rules alone. It is not necessary to differentiate twice: what is asked of the Hessian is that it is
the derivative of the gradient, and this is the second derivative of the function.
-/

namespace LogBarrier

open Matrix

variable {n : ℕ}

/-! ## Linear maps of tuples -/

/-- The inner product with a tuple, as a linear form that depends linearly on it. -/
noncomputable def dotWith : (Fin n → ℝ) →L[ℝ] (Fin n → ℝ) →L[ℝ] ℝ :=
  LinearMap.toContinuousLinearMap
    (LinearMap.toContinuousLinearMap.toLinearMap ∘ₗ dotProductBilin ℝ ℝ)

noncomputable def mulVecBy (H : Matrix (Fin n) (Fin n) ℝ) : (Fin n → ℝ) →L[ℝ] Fin n → ℝ :=
  LinearMap.toContinuousLinearMap H.mulVecLin

/-! ## The rules -/

/-- The function has the given gradient and the given symmetric Hessian at every point. -/
structure HasDerivatives (f : (Fin n → ℝ) → ℝ) (g : (Fin n → ℝ) → Fin n → ℝ)
    (H : (Fin n → ℝ) → Matrix (Fin n) (Fin n) ℝ) : Prop where
  gradient : ∀ u, HasFDerivAt f (dotWith (g u)) u
  hessian : ∀ u, HasFDerivAt g (mulVecBy (H u)) u
  symmetric : ∀ u, (H u).IsSymm

namespace HasDerivatives

variable {f f' : (Fin n → ℝ) → ℝ} {g g' : (Fin n → ℝ) → Fin n → ℝ}
  {H H' : (Fin n → ℝ) → Matrix (Fin n) (Fin n) ℝ}

theorem congr (h : HasDerivatives f g H) (hf : ∀ u, f' u = f u) (hg : ∀ u, g' u = g u)
    (hH : ∀ u, H' u = H u) : HasDerivatives f' g' H' := by
  obtain rfl : f' = f := funext hf
  obtain rfl : g' = g := funext hg
  obtain rfl : H' = H := funext hH
  exact h

theorem const (n : ℕ) (a : ℝ) :
    HasDerivatives (fun _ : Fin n → ℝ ↦ a) (fun _ ↦ 0) fun _ ↦ 0 where
  gradient u := (hasFDerivAt_const a u).congr_fderiv (map_zero dotWith).symm
  hessian u := (hasFDerivAt_const 0 u).congr_fderiv
    (ContinuousLinearMap.ext fun d ↦ (zero_mulVec d).symm)
  symmetric _ := isSymm_zero

theorem coordinate (i : Fin n) :
    HasDerivatives (fun u ↦ u i) (fun _ ↦ Pi.single i 1) fun _ ↦ 0 where
  gradient u := (hasFDerivAt_apply i u).congr_fderiv
    (ContinuousLinearMap.ext fun d ↦ (single_one_dotProduct i d).symm)
  hessian u := (hasFDerivAt_const _ u).congr_fderiv
    (ContinuousLinearMap.ext fun d ↦ (zero_mulVec d).symm)
  symmetric _ := isSymm_zero

theorem add (h : HasDerivatives f g H) (h' : HasDerivatives f' g' H') :
    HasDerivatives (fun u ↦ f u + f' u) (fun u ↦ g u + g' u) fun u ↦ H u + H' u where
  gradient u := ((h.gradient u).fun_add (h'.gradient u)).congr_fderiv (map_add dotWith _ _).symm
  hessian u := ((h.hessian u).fun_add (h'.hessian u)).congr_fderiv
    (ContinuousLinearMap.ext fun d ↦ (add_mulVec _ _ d).symm)
  symmetric u := (h.symmetric u).add (h'.symmetric u)

theorem const_mul (h : HasDerivatives f g H) (a : ℝ) :
    HasDerivatives (fun u ↦ a * f u) (fun u ↦ a • g u) fun u ↦ a • H u where
  gradient u := ((h.gradient u).const_mul a).congr_fderiv (map_smul dotWith a _).symm
  hessian u := ((h.hessian u).fun_const_smul a).congr_fderiv
    (ContinuousLinearMap.ext fun d ↦ (smul_mulVec a _ d).symm)
  symmetric u := (h.symmetric u).smul a

/-- The product rule. In the Hessian, the two gradients meet in both orders. -/
theorem mul (h : HasDerivatives f g H) (h' : HasDerivatives f' g' H') :
    HasDerivatives (fun u ↦ f u * f' u) (fun u ↦ f u • g' u + f' u • g u) fun u ↦
      f u • H' u + f' u • H u + (vecMulVec (g u) (g' u) + vecMulVec (g' u) (g u)) where
  gradient u := ((h.gradient u).fun_mul (h'.gradient u)).congr_fderiv (by
    rw [map_add, map_smul, map_smul])
  hessian u := by
    have hproduct := ((h.gradient u).fun_smul (h'.hessian u)).fun_add
      ((h'.gradient u).fun_smul (h.hessian u))
    refine hproduct.congr_fderiv (ContinuousLinearMap.ext fun d ↦ ?_)
    change f u • H' u *ᵥ d + (g u ⬝ᵥ d) • g' u + (f' u • H u *ᵥ d + (g' u ⬝ᵥ d) • g u) =
      (f u • H' u + f' u • H u + (vecMulVec (g u) (g' u) + vecMulVec (g' u) (g u))) *ᵥ d
    rw [add_mulVec, add_mulVec, add_mulVec, smul_mulVec, smul_mulVec, vecMulVec_mulVec,
      vecMulVec_mulVec, op_smul_eq_smul, op_smul_eq_smul]
    abel
  symmetric u := by
    refine ((h'.symmetric u).smul _ |>.add ((h.symmetric u).smul _)).add ?_
    rw [IsSymm, transpose_add, transpose_vecMulVec, transpose_vecMulVec, add_comm]

theorem sum {ι : Type} (s : Finset ι) {f : ι → (Fin n → ℝ) → ℝ}
    {g : ι → (Fin n → ℝ) → Fin n → ℝ} {H : ι → (Fin n → ℝ) → Matrix (Fin n) (Fin n) ℝ}
    (h : ∀ i, HasDerivatives (f i) (g i) (H i)) :
    HasDerivatives (fun u ↦ ∑ i ∈ s, f i u) (fun u ↦ ∑ i ∈ s, g i u) fun u ↦ ∑ i ∈ s, H i u := by
  classical
  induction s using Finset.induction_on with
  | empty => exact const n 0
  | insert i s hi ih =>
    simp only [Finset.sum_insert hi]
    exact (h i).add ih

/-- The gradient of a quadratic function with a symmetric matrix is affine. -/
theorem quadratic {Q : Matrix (Fin n) (Fin n) ℝ} (hQ : Q.IsSymm) (c : Fin n → ℝ) :
    HasDerivatives (quadratic Q c) (fun u ↦ Q *ᵥ u + c) fun _ ↦ Q where
  gradient u := by
    have hform := (dotWith (n := n)).hasFDerivAt_of_bilinear (hasFDerivAt_id u)
      (mulVecBy Q).hasFDerivAt
    refine ((hform.const_mul (1 / 2)).fun_add (dotWith c).hasFDerivAt).congr_fderiv
      (ContinuousLinearMap.ext fun d ↦ ?_)
    change 1 / 2 * (u ⬝ᵥ Q *ᵥ d + d ⬝ᵥ Q *ᵥ u) + c ⬝ᵥ d = (Q *ᵥ u + c) ⬝ᵥ d
    rw [dotProduct_comm u, mulVec_dotProduct_comm hQ d u, dotProduct_comm d, add_dotProduct]
    ring
  hessian u := (mulVecBy Q).hasFDerivAt.add_const c
  symmetric _ := hQ

theorem dotProduct_self_sub (n : ℕ) (a : ℝ) :
    HasDerivatives (fun u : Fin n → ℝ ↦ u ⬝ᵥ u - a) (fun u ↦ (2 : ℝ) • u) fun _ ↦ (2 : ℝ) • 1 := by
  refine ((quadratic (isSymm_one.smul 2) 0).add (const n (-a))).congr (fun u ↦ ?_) (fun u ↦ ?_)
    fun u ↦ (add_zero _).symm
  · rw [LogBarrier.quadratic, smul_mulVec, one_mulVec, dotProduct_smul, smul_eq_mul,
      zero_dotProduct]
    ring
  · rw [smul_mulVec, one_mulVec, add_zero, add_zero]

/-- The second derivative maps two tuples to the inner product of the one with the image of the
other under the Hessian. -/
theorem hasFDerivAt_fderiv (h : HasDerivatives f g H) (u : Fin n → ℝ) :
    HasFDerivAt (fderiv ℝ f) (dotWith ∘L mulVecBy (H u)) u := by
  have hfderiv : fderiv ℝ f = fun u ↦ dotWith (g u) := funext fun u ↦ (h.gradient u).fderiv
  rw [hfderiv]
  exact dotWith.hasFDerivAt.comp u (h.hessian u)

end HasDerivatives

end LogBarrier
