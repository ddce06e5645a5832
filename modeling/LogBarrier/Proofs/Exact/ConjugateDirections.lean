import LogBarrier.Proofs.Exact.Euclidean
import Mathlib.LinearAlgebra.FiniteDimensional.Lemmas
import Mathlib.LinearAlgebra.Matrix.DotProduct
import Mathlib.Tactic.FieldSimp

/-!
# Conjugate directions

Conjugate gradients in a subspace `N` go from a gradient `g` and a direction `d` to the next ones,

  `g' = g + t H d`,  `d' = β d - g'`,

where the first equation is meant up to vectors that are orthogonal to `N`, as it is followed by a
projection to `N`. The factors are chosen such that `g'` is orthogonal to the last direction, and
`d'` conjugate to it. Nothing is said of the directions before.

## The invariant

Let `K` be the span of the directions that were searched. Each round preserves

  `g ⊥ K`,  `d ⊥ H K`,  `g + d ∈ K`,  `H K ⊆ K + ℝ d`,

the last one again up to vectors that are orthogonal to `N`. It is the last one that makes the next
direction conjugate to the earlier ones. Every round raises the dimension of `K`, and once `K` is
all of `N`, the gradient is orthogonal to itself.
-/

namespace LogBarrier

open Matrix Module

variable {n : ℕ} {H : Matrix (Fin n) (Fin n) ℝ} {N K : Submodule ℝ (Fin n → ℝ)}
  {g g' d d' : Fin n → ℝ} {γ κ : ℝ}

/-- A round of conjugate gradients in `N`, from a gradient whose square is `γ` along a direction of
curvature `κ`. -/
structure ConjugateRound (H : Matrix (Fin n) (Fin n) ℝ) (N : Submodule ℝ (Fin n → ℝ)) (γ κ : ℝ)
    (g d g' d' : Fin n → ℝ) : Prop where
  square_ne_zero : γ ≠ 0
  curvature_ne_zero : κ ≠ 0
  direction_mem : d ∈ N
  gradient_mem : g' ∈ N
  slope : g ⬝ᵥ d = -γ
  curvature : H *ᵥ d ⬝ᵥ d = κ
  gradient : ∀ u ∈ N, g' ⬝ᵥ u = g ⬝ᵥ u + γ / κ * (H *ᵥ d ⬝ᵥ u)
  direction : d' = (g' ⬝ᵥ g' / γ) • d - g'

theorem ConjugateRound.orthogonal_last (h : ConjugateRound H N γ κ g d g' d') : g' ⬝ᵥ d = 0 := by
  rw [h.gradient d h.direction_mem, h.slope, h.curvature, div_mul_cancel₀ γ h.curvature_ne_zero,
    neg_add_cancel]

/-- What the gradient and the direction have to do with the directions that were searched before,
which span `K`. -/
structure Searched (H : Matrix (Fin n) (Fin n) ℝ) (N K : Submodule ℝ (Fin n → ℝ))
    (g d : Fin n → ℝ) : Prop where
  le : K ≤ N
  orthogonal : ∀ v ∈ K, g ⬝ᵥ v = 0
  conjugate : ∀ v ∈ K, H *ᵥ v ⬝ᵥ d = 0
  sum_mem : g + d ∈ K
  image : ∀ v ∈ K, ∃ w ∈ K, ∃ r : ℝ, ∀ u ∈ N, H *ᵥ v ⬝ᵥ u = (w + r • d) ⬝ᵥ u

theorem add_smul_mem_sup_span {v : Fin n → ℝ} (hv : v ∈ K) (r : ℝ) :
    v + r • d ∈ K ⊔ Submodule.span ℝ {d} :=
  Submodule.add_mem_sup hv (Submodule.smul_mem _ r (Submodule.mem_span_singleton_self d))

/-- What is true of the searched directions and of the last one is true of all their sums. -/
theorem forall_mem_sup_span {P : (Fin n → ℝ) → Prop} (h : ∀ v ∈ K, ∀ r : ℝ, P (v + r • d)) :
    ∀ v ∈ K ⊔ Submodule.span ℝ {d}, P v := by
  intro v hv
  obtain ⟨w, hw, z, hz, rfl⟩ := Submodule.mem_sup.mp hv
  obtain ⟨r, rfl⟩ := Submodule.mem_span_singleton.mp hz
  exact h w hw r

namespace Searched

theorem start (H : Matrix (Fin n) (Fin n) ℝ) (N : Submodule ℝ (Fin n → ℝ)) (g : Fin n → ℝ) :
    Searched H N ⊥ g (-g) where
  le := bot_le
  orthogonal v hv := by rw [(Submodule.mem_bot ℝ).mp hv, dotProduct_zero]
  conjugate v hv := by rw [(Submodule.mem_bot ℝ).mp hv, mulVec_zero, zero_dotProduct]
  sum_mem := (Submodule.mem_bot ℝ).mpr (add_neg_cancel g)
  image v hv := ⟨0, zero_mem _, 0, fun u _ ↦ by
    rw [(Submodule.mem_bot ℝ).mp hv, mulVec_zero, zero_smul, add_zero]⟩

variable (h : Searched H N K g d) (hround : ConjugateRound H N γ κ g d g' d')

include h

/-- The direction of a round is none of those that were searched. -/
theorem notMem (hround : ConjugateRound H N γ κ g d g' d') : d ∉ K := fun hd ↦
  hround.square_ne_zero (neg_eq_zero.mp (hround.slope.symm.trans (h.orthogonal d hd)))

/-- The old gradient is a combination of the searched directions. -/
theorem gradient_mem : g ∈ K ⊔ Submodule.span ℝ {d} := by
  have hmem := add_smul_mem_sup_span (d := d) h.sum_mem (-1)
  rwa [neg_one_smul, add_neg_cancel_right] at hmem

include hround

theorem orthogonal_next (hH : H.IsSymm) : ∀ v ∈ K ⊔ Submodule.span ℝ {d}, g' ⬝ᵥ v = 0 := by
  refine forall_mem_sup_span fun v hv r ↦ ?_
  have hearlier : g' ⬝ᵥ v = 0 := by
    rw [hround.gradient v (h.le hv), h.orthogonal v hv, mulVec_dotProduct_comm hH,
      h.conjugate v hv, mul_zero, add_zero]
  rw [dotProduct_add, dotProduct_smul, hearlier, hround.orthogonal_last, smul_zero, add_zero]

theorem conjugate_last (hH : H.IsSymm) : H *ᵥ d ⬝ᵥ d' = 0 := by
  have hcross : g ⬝ᵥ g' = 0 := by
    rw [dotProduct_comm]
    exact h.orthogonal_next hround hH g h.gradient_mem
  have hcurved : g' ⬝ᵥ g' = γ / κ * (H *ᵥ d ⬝ᵥ g') := by
    rw [hround.gradient g' hround.gradient_mem, hcross, zero_add]
  have hγ := hround.square_ne_zero
  have hκ := hround.curvature_ne_zero
  rw [hround.direction, dotProduct_sub, dotProduct_smul, hround.curvature, hcurved, smul_eq_mul,
    sub_eq_zero]
  field_simp

theorem conjugate_earlier (hH : H.IsSymm) {v : Fin n → ℝ} (hv : v ∈ K) : H *ᵥ v ⬝ᵥ d' = 0 := by
  obtain ⟨w, hw, r, himage⟩ := h.image v hv
  have hgradient : H *ᵥ v ⬝ᵥ g' = 0 := by
    rw [himage g' hround.gradient_mem, dotProduct_comm]
    exact h.orthogonal_next hround hH _ (add_smul_mem_sup_span hw r)
  rw [hround.direction, dotProduct_sub, dotProduct_smul, h.conjugate v hv, hgradient, smul_zero,
    sub_zero]

/-- The image of the last direction is a combination of the searched directions and the next one. -/
theorem image_last : ∃ w ∈ K ⊔ Submodule.span ℝ {d}, ∃ r : ℝ,
    ∀ u ∈ N, H *ᵥ d ⬝ᵥ u = (w + r • d') ⬝ᵥ u := by
  have hd : d ∈ K ⊔ Submodule.span ℝ {d} :=
    Submodule.mem_sup_right (Submodule.mem_span_singleton_self d)
  refine ⟨(κ / γ) • ((g' ⬝ᵥ g' / γ) • d - g), Submodule.smul_mem _ _ (Submodule.sub_mem _
    (Submodule.smul_mem _ _ hd) h.gradient_mem), -(κ / γ), fun u hu ↦ ?_⟩
  have hγ := hround.square_ne_zero
  have hκ := hround.curvature_ne_zero
  have himage : H *ᵥ d ⬝ᵥ u = κ / γ * (g' ⬝ᵥ u - g ⬝ᵥ u) := by
    rw [hround.gradient u hu]
    field_simp
    ring
  rw [himage, hround.direction]
  simp only [add_dotProduct, sub_dotProduct, smul_dotProduct, smul_eq_mul]
  ring

/-- A round preserves the invariant, and its direction is added to those that were searched. -/
theorem next (hH : H.IsSymm) : Searched H N (K ⊔ Submodule.span ℝ {d}) g' d' where
  le := sup_le h.le ((Submodule.span_singleton_le_iff_mem d N).mpr hround.direction_mem)
  orthogonal := h.orthogonal_next hround hH
  conjugate := forall_mem_sup_span fun v hv r ↦ by
    rw [mulVec_add, mulVec_smul, add_dotProduct, smul_dotProduct,
      h.conjugate_earlier hround hH hv, h.conjugate_last hround hH, smul_zero, add_zero]
  sum_mem := by
    rw [hround.direction, add_sub_cancel]
    exact Submodule.mem_sup_right
      (Submodule.smul_mem _ _ (Submodule.mem_span_singleton_self d))
  image := forall_mem_sup_span fun v hv r ↦ by
    obtain ⟨w, hw, s, hearlier⟩ := h.image v hv
    obtain ⟨z, hz, t, hlast⟩ := h.image_last hround
    refine ⟨w + s • d + r • z, Submodule.add_mem _ (add_smul_mem_sup_span hw s)
      (Submodule.smul_mem _ r hz), r * t, fun u hu ↦ ?_⟩
    rw [mulVec_add, mulVec_smul, add_dotProduct, smul_dotProduct, hearlier u hu, hlast u hu]
    simp only [add_dotProduct, smul_dotProduct, smul_eq_mul]
    ring

theorem finrank_next : finrank ℝ ↥(K ⊔ Submodule.span ℝ {d}) = finrank ℝ K + 1 :=
  Submodule.finrank_sup_span_singleton (h.notMem hround)

omit hround

/-- When the directions that were searched are all that there are, the gradient is zero. -/
theorem gradient_eq_zero (hg : g ∈ N) (hrank : finrank ℝ K = finrank ℝ N) : g = 0 := by
  have hall : K = N := Submodule.eq_of_le_of_finrank_eq h.le hrank
  exact dotProduct_self_eq_zero.mp (h.orthogonal g (hall ▸ hg))

end Searched

end LogBarrier
