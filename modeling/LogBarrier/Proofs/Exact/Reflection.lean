import LogBarrier.DenseMatrix.Householder
import LogBarrier.Proofs.Exact.Coordinates
import Mathlib.Algebra.BigOperators.Field
import Mathlib.Tactic.FieldSimp
import Mathlib.Tactic.LinearCombination
import Mathlib.Tactic.Ring

/-!
# Reflections of real vectors

A reflection with a unit axis, followed by a sign, keeps inner products and undoes itself.

## The axis of a reflection

A reflection is made for a vector `v` with first entry `a`. Its axis is `v` with `σ ‖v‖` added to
the first entry, where `σ` is the sign of `a`. The square of the norm of that axis is the factor
`2 (‖v‖² + a σ ‖v‖)`, so dividing by its root normalizes the axis, and the second division, by the
norm of what is then a unit vector, does nothing. Half of the factor is also the inner product of
the axis with `v`, so the reflection removes from `v` exactly what the axis has beyond a multiple of
the first unit vector.
-/

namespace LogBarrier

open Extended

namespace Reflection

/-- The coordinates of a reflected vector, multiplied by the sign. -/
noncomputable def image (n : ℕ) (a : ℕ → ℝ) (σ : ℝ) (f : ℕ → ℝ) (i : ℕ) : ℝ :=
  σ * (f i - (∑ j ∈ Finset.range n, a j * f j + ∑ j ∈ Finset.range n, a j * f j) * a i)

theorem image_eq (n : ℕ) (a : ℕ → ℝ) (σ : ℝ) (f : ℕ → ℝ) (i : ℕ) :
    image n a σ f i = σ * (f i - 2 * (∑ j ∈ Finset.range n, a j * f j) * a i) := by
  rw [image, two_mul]

/-- The axis is a unit vector or zero, and the factor is a sign. -/
structure IsOrthogonal (n : ℕ) (a : ℕ → ℝ) (σ : ℝ) : Prop where
  axis : ∑ i ∈ Finset.range n, a i * a i = 1 ∨ ∀ i < n, a i = 0
  sign : σ * σ = 1

section Image

variable {n i : ℕ} {a f g : ℕ → ℝ} {σ : ℝ}

/-- What is in the direction of the axis is counted once. -/
theorem IsOrthogonal.sum_mul (h : IsOrthogonal n a σ) (f : ℕ → ℝ) :
    (∑ i ∈ Finset.range n, a i * f i) * ∑ i ∈ Finset.range n, a i * a i =
      ∑ i ∈ Finset.range n, a i * f i := by
  rcases h.axis with hunit | hzero
  · rw [hunit, mul_one]
  · rw [Finset.sum_eq_zero fun i hi ↦ by rw [hzero i (Finset.mem_range.mp hi), zero_mul], zero_mul]

theorem IsOrthogonal.sum_image_mul (h : IsOrthogonal n a σ) (f g : ℕ → ℝ) :
    ∑ i ∈ Finset.range n, image n a σ f i * image n a σ g i =
      ∑ i ∈ Finset.range n, f i * g i := by
  set u := ∑ i ∈ Finset.range n, a i * f i with hu
  set v := ∑ i ∈ Finset.range n, a i * g i with hv
  have hterm : ∀ i, image n a σ f i * image n a σ g i =
      f i * g i - 2 * v * (a i * f i) - 2 * u * (a i * g i) + 4 * (u * v) * (a i * a i) := by
    intro i
    rw [image_eq, image_eq, ← hu, ← hv]
    linear_combination (f i - 2 * u * a i) * (g i - 2 * v * a i) * h.sign
  rw [Finset.sum_congr rfl fun i _ ↦ hterm i, Finset.sum_add_distrib, Finset.sum_sub_distrib,
    Finset.sum_sub_distrib, ← Finset.mul_sum, ← Finset.mul_sum, ← Finset.mul_sum, ← hu, ← hv]
  linear_combination 4 * v * h.sum_mul f

/-- A reflection undoes itself. -/
theorem IsOrthogonal.image_image (h : IsOrthogonal n a σ) (f : ℕ → ℝ) (i : ℕ) :
    image n a σ (image n a σ f) i = f i := by
  set u := ∑ i ∈ Finset.range n, a i * f i with hu
  have hsum : ∑ j ∈ Finset.range n, a j * image n a σ f j =
      σ * (u - 2 * u * ∑ i ∈ Finset.range n, a i * a i) := by
    rw [Finset.sum_congr rfl fun j _ ↦ show a j * image n a σ f j =
        σ * (a j * f j - 2 * u * (a j * a j)) by rw [image_eq, ← hu]; ring,
      ← Finset.mul_sum, Finset.sum_sub_distrib, ← Finset.mul_sum]
  have hsum' : u * ∑ i ∈ Finset.range n, a i * a i = u := h.sum_mul f
  rw [image_eq, hsum, image_eq, ← hu]
  linear_combination f i * h.sign + 4 * (σ * σ) * a i * hsum'

theorem image_congr (h : ∀ j < n, f j = g j) (hi : i < n) : image n a σ f i = image n a σ g i := by
  rw [image_eq, image_eq, h i hi,
    Finset.sum_congr rfl fun j hj ↦ by rw [h j (Finset.mem_range.mp hj)]]

theorem image_sum (s : Finset ℕ) (c : ℕ → ℝ) (F : ℕ → ℕ → ℝ) (i : ℕ) :
    image n a σ (fun i ↦ ∑ k ∈ s, c k * F k i) i = ∑ k ∈ s, c k * image n a σ (F k) i := by
  have hinner : ∑ j ∈ Finset.range n, a j * ∑ k ∈ s, c k * F k j =
      ∑ k ∈ s, c k * ∑ j ∈ Finset.range n, a j * F k j := by
    simp only [Finset.mul_sum]
    rw [Finset.sum_comm]
    exact Finset.sum_congr rfl fun k _ ↦ Finset.sum_congr rfl fun j _ ↦ by ring
  rw [image_eq, hinner, Finset.mul_sum, Finset.sum_mul, ← Finset.sum_sub_distrib, Finset.mul_sum]
  exact Finset.sum_congr rfl fun k _ ↦ by rw [image_eq]; ring

theorem apply_ofCoords (n : ℕ) (a f : ℕ → ℝ) (p σ : ℝ) :
    Reflection.apply ⟨Vec.ofCoords n a, real p, real σ⟩ (Vec.ofCoords n f) =
      Vec.ofCoords n (image n a σ f) := by
  rw [apply]
  dsimp only
  rw [Vec.dotSum_ofCoords, ofScientific_eq, real_neg, real_mul, real_mul]
  refine (Vec.zipWith_ofCoords (fun b c ↦ _ * b + σ * c) (fun _ _ ↦ rfl) n a f).trans
    (Vec.ofCoords_congr fun i _ ↦ ?_)
  rw [image_eq]
  norm_num
  ring

end Image

/-! ## Reflections made for a vector -/

noncomputable def factorSign (a : ℝ) : ℝ := if 0 ≤ a then 1 else -1

theorem factorSign_mul_self (a : ℝ) : factorSign a * factorSign a = 1 := by
  rw [factorSign]
  split <;> norm_num

theorem factorSign_mul (a : ℝ) : factorSign a * a = |a| := by
  rw [factorSign]
  split
  next h => rw [one_mul, abs_of_nonneg h]
  next h => rw [neg_one_mul, abs_of_neg (not_le.mp h)]

theorem signFactor_real (a : ℝ) : Scalar.signFactor (real a) = real (factorSign a) := by
  rw [Scalar.signFactor, factorSign, zero_eq, apply_ite real]
  exact if_congr real_le rfl rfl

theorem signOf_real (a : ℝ) : signOf (real a) = real (factorSign a) := by
  change (if a < 0 then real (-|1|) else real |1|) = _
  rw [factorSign, abs_one, apply_ite real]
  split_ifs <;> first | rfl | linarith

/-- The axis before it is normalized. -/
noncomputable def rawAxis (n : ℕ) (f : ℕ → ℝ) (i : ℕ) : ℝ :=
  f i + if i = 0 then factorSign (f 0) * √(∑ j ∈ Finset.range n, f j * f j) else 0

/-- The square of the norm of the axis before it is normalized. -/
noncomputable def axisFactor (n : ℕ) (f : ℕ → ℝ) : ℝ :=
  (∑ j ∈ Finset.range n, f j * f j
    + f 0 * factorSign (f 0) * √(∑ j ∈ Finset.range n, f j * f j)) * 2.0

noncomputable def unitAxis (n : ℕ) (f : ℕ → ℝ) (i : ℕ) : ℝ := rawAxis n f i / √(axisFactor n f)

section Axis

variable {n : ℕ} {f : ℕ → ℝ}

theorem sum_sq_nonneg (n : ℕ) (f : ℕ → ℝ) : 0 ≤ ∑ j ∈ Finset.range n, f j * f j :=
  Finset.sum_nonneg fun j _ ↦ mul_self_nonneg (f j)

theorem sum_rawAxis_mul (hn : 0 < n) (f : ℕ → ℝ) :
    ∑ i ∈ Finset.range n, rawAxis n f i * f i = axisFactor n f / 2 := by
  have hterm : ∀ i, rawAxis n f i * f i = f i * f i
      + if i = 0 then f 0 * factorSign (f 0) * √(∑ j ∈ Finset.range n, f j * f j) else 0 := by
    intro i
    rw [rawAxis]
    split_ifs with h
    · rw [h]
      ring
    · ring
  rw [Finset.sum_congr rfl fun i _ ↦ hterm i, Finset.sum_add_distrib, Finset.sum_ite_eq',
    if_pos (Finset.mem_range.mpr hn), axisFactor]
  norm_num

theorem sum_sq_rawAxis (hn : 0 < n) (f : ℕ → ℝ) :
    ∑ i ∈ Finset.range n, rawAxis n f i * rawAxis n f i = axisFactor n f := by
  set ν := √(∑ j ∈ Finset.range n, f j * f j) with hν
  have hroot : ν * ν = ∑ j ∈ Finset.range n, f j * f j := Real.mul_self_sqrt (sum_sq_nonneg n f)
  have hterm : ∀ i, rawAxis n f i * rawAxis n f i = rawAxis n f i * f i
      + if i = 0 then rawAxis n f 0 * (factorSign (f 0) * ν) else 0 := by
    intro i
    split_ifs with h
    · rw [h, ← mul_add, rawAxis, if_pos rfl, ← hν]
    · rw [rawAxis, if_neg h, add_zero, add_zero]
  rw [Finset.sum_congr rfl fun i _ ↦ hterm i, Finset.sum_add_distrib, sum_rawAxis_mul hn,
    Finset.sum_ite_eq', if_pos (Finset.mem_range.mpr hn), rawAxis, if_pos rfl, axisFactor, ← hν]
  norm_num
  linear_combination ν * ν * factorSign_mul_self (f 0) + hroot

theorem eq_zero_of_axisFactor (h : axisFactor n f = 0) : ∀ i < n, f i = 0 := by
  have hterm : 0 ≤ f 0 * factorSign (f 0) * √(∑ j ∈ Finset.range n, f j * f j) := by
    rw [mul_comm (f 0), factorSign_mul]
    positivity
  have hsum : ∑ j ∈ Finset.range n, f j * f j = 0 := by
    have hnonneg := sum_sq_nonneg n f
    rw [axisFactor] at h
    norm_num at h
    linarith
  intro i hi
  exact mul_self_eq_zero.mp
    ((Finset.sum_eq_zero_iff_of_nonneg fun j _ ↦ mul_self_nonneg (f j)).mp hsum i
      (Finset.mem_range.mpr hi))

theorem sum_sq_unitAxis (hn : 0 < n) (hF : 0 < axisFactor n f) :
    ∑ i ∈ Finset.range n, unitAxis n f i * unitAxis n f i = 1 := by
  have hsq : √(axisFactor n f) * √(axisFactor n f) = axisFactor n f := Real.mul_self_sqrt hF.le
  rw [Finset.sum_congr rfl fun i _ ↦ show unitAxis n f i * unitAxis n f i =
      rawAxis n f i * rawAxis n f i / axisFactor n f by
        rw [unitAxis, div_mul_div_comm, hsq],
    ← Finset.sum_div, sum_sq_rawAxis hn, div_self hF.ne']

theorem axisFactor_nonneg (hn : 0 < n) (f : ℕ → ℝ) : 0 ≤ axisFactor n f :=
  sum_sq_rawAxis hn f ▸ sum_sq_nonneg n (rawAxis n f)

/-- A reflection with the normalized axis removes from the vector what the axis has beyond it. -/
theorem sub_sum_unitAxis (hn : 0 < n) (hF : 0 < axisFactor n f) (i : ℕ) :
    f i - 2 * (∑ j ∈ Finset.range n, unitAxis n f j * f j) * unitAxis n f i =
      f i - rawAxis n f i := by
  have hsq : √(axisFactor n f) * √(axisFactor n f) = axisFactor n f := Real.mul_self_sqrt hF.le
  have hroot : √(axisFactor n f) ≠ 0 := (Real.sqrt_pos.mpr hF).ne'
  have hinner : ∑ j ∈ Finset.range n, unitAxis n f j * f j =
      axisFactor n f / 2 / √(axisFactor n f) := by
    rw [← sum_rawAxis_mul hn, Finset.sum_div]
    exact Finset.sum_congr rfl fun i _ ↦ by rw [unitAxis]; ring
  rw [hinner, unitAxis]
  field_simp
  linear_combination rawAxis n f i * hsq

/-- What a reflection is made of. The second normalization of the axis does nothing. -/
theorem clearing_eq (n : ℕ) (f : ℕ → ℝ) :
    clearing (Vec.ofCoords (n + 1) f) =
      if axisFactor (n + 1) f = 0 then
        ⟨Vec.ofCoords (n + 1) (rawAxis (n + 1) f),
          real (factorSign (f 0) * √(∑ j ∈ Finset.range (n + 1), f j * f j)), real 1⟩
      else
        ⟨Vec.ofCoords (n + 1) (unitAxis (n + 1) f),
          real (-(factorSign (f 0) * √(∑ j ∈ Finset.range (n + 1), f j * f j))),
          real (factorSign (-(factorSign (f 0) * √(∑ j ∈ Finset.range (n + 1), f j * f j))))⟩ := by
  set ν := √(∑ j ∈ Finset.range (n + 1), f j * f j) with hν
  have hraw : real (f 0 + factorSign (f 0) * ν) :: Vec.ofCoords n (fun i ↦ f (i + 1)) =
      Vec.ofCoords (n + 1) (rawAxis (n + 1) f) := by
    rw [Vec.ofCoords_succ, rawAxis, if_pos rfl]
    refine congrArg _ (Vec.ofCoords_congr fun i _ ↦ ?_)
    rw [rawAxis, if_neg (Nat.succ_ne_zero i), add_zero]
  have hsquared : Vec.normSq (real (f 0) :: Vec.ofCoords n fun i ↦ f (i + 1)) =
      real (∑ j ∈ Finset.range (n + 1), f j * f j) := by
    rw [← Vec.ofCoords_succ, Vec.normSq, Vec.dotSum_ofCoords]
  rw [Vec.ofCoords_succ, clearing]
  simp only [hsquared, signFactor_real, sqrt_real (sum_sq_nonneg (n + 1) f), real_mul, real_add,
    ofScientific_eq, ← hν, hraw]
  rw [← axisFactor.eq_def]
  refine ite_congr (propext real_beq) (fun _ ↦ rfl) fun hzero ↦ ?_
  have hpos : 0 < axisFactor (n + 1) f := (axisFactor_nonneg n.succ_pos f).lt_of_ne' hzero
  have hroot : √(axisFactor (n + 1) f) ≠ 0 := (Real.sqrt_pos.mpr hpos).ne'
  have hhalved : (Vec.ofCoords (n + 1) (rawAxis (n + 1) f)).map
      (· / Scalar.sqrt (real (axisFactor (n + 1) f))) = Vec.ofCoords (n + 1) (unitAxis (n + 1) f) :=
    Vec.map_ofCoords (· / √(axisFactor (n + 1) f))
      (fun b ↦ by rw [sqrt_real hpos.le, real_div hroot]) _ _
  have hnorm : Vec.norm (Vec.ofCoords (n + 1) (unitAxis (n + 1) f)) = real 1 := by
    rw [Vec.norm, Vec.normSq, Vec.dotSum_ofCoords, sum_sq_unitAxis n.succ_pos hpos,
      sqrt_real zero_le_one, Real.sqrt_one]
  have hnormalized : (Vec.ofCoords (n + 1) (unitAxis (n + 1) f)).map (· / real 1) =
      Vec.ofCoords (n + 1) (unitAxis (n + 1) f) :=
    Vec.map_ofCoords id (fun b ↦ by rw [real_div one_ne_zero, div_one]; rfl) _ _
  rw [hhalved, hnorm, hnormalized, real_neg, signOf_real]

/-- The reflection made for a vector is orthogonal, and it sends the vector to its norm times the
first unit vector. -/
theorem clearing_ofCoords (n : ℕ) (f : ℕ → ℝ) :
    ∃ a p σ, clearing (Vec.ofCoords (n + 1) f) = ⟨Vec.ofCoords (n + 1) a, real p, real σ⟩
      ∧ IsOrthogonal (n + 1) a σ ∧ |p| = √(∑ j ∈ Finset.range (n + 1), f j * f j)
      ∧ ∀ i < n + 1, image (n + 1) a σ f i = if i = 0 then |p| else 0 := by
  have hpivot : |factorSign (f 0) * √(∑ j ∈ Finset.range (n + 1), f j * f j)| =
      √(∑ j ∈ Finset.range (n + 1), f j * f j) := by
    have hsign : |factorSign (f 0)| = 1 := by
      rw [factorSign]
      split <;> norm_num
    rw [abs_mul, hsign, one_mul, abs_of_nonneg (Real.sqrt_nonneg _)]
  rw [clearing_eq]
  split_ifs with hzero
  · -- A vector without a norm is zero, and so is its axis.
    have hf := eq_zero_of_axisFactor hzero
    have hnorm : √(∑ j ∈ Finset.range (n + 1), f j * f j) = 0 := by
      rw [Finset.sum_eq_zero fun j hj ↦ by rw [hf j (Finset.mem_range.mp hj), mul_zero],
        Real.sqrt_zero]
    have haxis : ∀ i < n + 1, rawAxis (n + 1) f i = 0 := fun i hi ↦ by
      rw [rawAxis, hf i hi, hnorm, mul_zero, ite_self, add_zero]
    refine ⟨_, _, 1, rfl, ⟨.inr haxis, mul_one 1⟩, hpivot, fun i hi ↦ ?_⟩
    rw [image_eq, haxis i hi, hf i hi, hpivot, hnorm, ite_self]
    ring
  · have hpos : 0 < axisFactor (n + 1) f :=
      (axisFactor_nonneg n.succ_pos f).lt_of_ne' hzero
    refine ⟨_, _, _, rfl, ⟨.inl (sum_sq_unitAxis n.succ_pos hpos), factorSign_mul_self _⟩,
      (abs_neg _).trans hpivot, fun i _ ↦ ?_⟩
    rw [image_eq, sub_sum_unitAxis n.succ_pos hpos, rawAxis]
    split_ifs with h
    · rw [← factorSign_mul]
      ring
    · ring

end Axis

end Reflection

end LogBarrier
