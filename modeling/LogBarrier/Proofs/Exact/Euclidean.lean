import LogBarrier.Proofs.Exact.Subspaces
import LogBarrier.Proofs.Operator.Applied
import LogBarrier.Proofs.Shape.Operator
import LogBarrier.Proofs.TrustRegion.Segment
import Mathlib.LinearAlgebra.Matrix.Symmetric
import Mathlib.Tactic.LinearCombination

/-!
# Tuples

The coordinates of a vector of real numbers are a tuple, an operator acts on tuples as a matrix, and
inner products are those of tuples. So what is known of bilinear forms can be used for vectors.
-/

namespace LogBarrier

open Extended Matrix

namespace Vec

/-- The vector consists of `n` real numbers. -/
structure InSpace (n : ℕ) (x : Vec Extended) : Prop where
  isReal : IsReal x
  length_eq : x.length = n

noncomputable def tuple (n : ℕ) (x : Vec Extended) : Fin n → ℝ := fun i ↦ x.coord i

variable {n : ℕ} {x y z d : Vec Extended}

theorem inSpace_ofCoords (n : ℕ) (f : ℕ → ℝ) : InSpace n (ofCoords n f) :=
  ⟨isReal_ofCoords n f, length_ofCoords n f⟩

theorem InSpace.exists_eq (hx : InSpace n x) : ∃ f, x = ofCoords n f :=
  ⟨x.coord, (ofCoords_coord_of_length hx.isReal hx.length_eq).symm⟩

@[simp] theorem tuple_ofCoords (n : ℕ) (f : ℕ → ℝ) : tuple n (ofCoords n f) = fun i : Fin n ↦ f i :=
  funext fun i ↦ coord_ofCoords i.2

@[simp] theorem tuple_zeros (n : ℕ) : tuple n (zeros n) = 0 := by
  rw [zeros_eq_ofCoords, tuple_ofCoords]
  rfl

theorem InSpace.dotSum_eq (hx : InSpace n x) (hy : InSpace n y) :
    dotSum x y = real (tuple n x ⬝ᵥ tuple n y) := by
  obtain ⟨f, rfl⟩ := hx.exists_eq
  obtain ⟨g, rfl⟩ := hy.exists_eq
  rw [dotSum_ofCoords, tuple_ofCoords, tuple_ofCoords, dotProduct, Finset.sum_range]

theorem InSpace.dot_eq (hx : InSpace n x) (hy : InSpace n y) :
    dot x y = .ok (real (tuple n x ⬝ᵥ tuple n y)) := by
  rw [dot, if_pos (hx.length_eq.trans hy.length_eq.symm), hx.dotSum_eq hy]

theorem InSpace.add (hx : InSpace n x) (hy : InSpace n y) (h : Vec.add x y = .ok z) :
    InSpace n z ∧ tuple n z = tuple n x + tuple n y := by
  obtain ⟨f, rfl⟩ := hx.exists_eq
  obtain ⟨g, rfl⟩ := hy.exists_eq
  rw [add_ofCoords] at h
  cases h
  refine ⟨inSpace_ofCoords _ _, ?_⟩
  rw [tuple_ofCoords, tuple_ofCoords, tuple_ofCoords]
  rfl

theorem InSpace.sub (hx : InSpace n x) (hy : InSpace n y) (h : Vec.sub x y = .ok z) :
    InSpace n z ∧ tuple n z = tuple n x - tuple n y := by
  obtain ⟨f, rfl⟩ := hx.exists_eq
  obtain ⟨g, rfl⟩ := hy.exists_eq
  rw [sub_ofCoords] at h
  cases h
  refine ⟨inSpace_ofCoords _ _, ?_⟩
  rw [tuple_ofCoords, tuple_ofCoords, tuple_ofCoords]
  rfl

theorem InSpace.scale (hx : InSpace n x) (t : ℝ) :
    InSpace n (Vec.scale x (real t)) ∧ tuple n (Vec.scale x (real t)) = t • tuple n x := by
  obtain ⟨f, rfl⟩ := hx.exists_eq
  rw [scale_ofCoords]
  refine ⟨inSpace_ofCoords _ _, funext fun i ↦ ?_⟩
  rw [tuple_ofCoords, tuple_ofCoords, Pi.smul_apply, smul_eq_mul, mul_comm]

theorem InSpace.neg (hx : InSpace n x) :
    InSpace n (Vec.neg x) ∧ tuple n (Vec.neg x) = -tuple n x := by
  obtain ⟨f, rfl⟩ := hx.exists_eq
  rw [neg_ofCoords]
  refine ⟨inSpace_ofCoords _ _, ?_⟩
  rw [tuple_ofCoords, tuple_ofCoords]
  rfl

theorem InSpace.onLine (hx : InSpace n x) (hd : InSpace n d) (t : ℝ) :
    InSpace n (Vec.onLine x d (real t))
      ∧ tuple n (Vec.onLine x d (real t)) = tuple n x + t • tuple n d := by
  obtain ⟨hscale, htuple⟩ := hd.scale t
  rw [← htuple]
  exact hx.add hscale
    (combine_eq_ok_iff.mpr ⟨hx.length_eq.trans hscale.length_eq.symm, rfl⟩)

end Vec

namespace Operator

/-- The matrix of an operator that maps tuples of length `n`. -/
noncomputable def asMatrix (op : Operator Extended) (n : ℕ) : Matrix (Fin n) (Fin n) ℝ :=
  Matrix.of fun i j ↦ op.coeff i j

/-- The dense matrix of the operator is symmetric. -/
def IsSymmetric (op : Operator Extended) : Prop :=
  ∀ i < op.rows, ∀ j < op.rows, op.coeff i j = op.coeff j i

variable {op : Operator Extended} {n : ℕ} {x y : Vec Extended}

theorem IsSymmetric.isSymm (h : op.IsSymmetric) (hshape : op.HasShape n n) :
    (op.asMatrix n).IsSymm := by
  refine Matrix.IsSymm.ext fun i j ↦ ?_
  exact h j (hshape.rows_eq ▸ j.2) i (hshape.rows_eq ▸ i.2)

theorem isSymmetric_diagonal (d : Vec Extended) : (diagonal d).IsSymmetric := by
  intro i hi j hj
  rw [coeff_diagonal hi hj, coeff_diagonal hj hi]
  by_cases hij : i = j
  · rw [hij]
  · rw [if_neg hij, if_neg (Ne.symm hij)]

theorem HasShape.tuple_apply (h : op.HasShape n n) (hop : op.IsReal) (hx : Vec.InSpace n x)
    (hy : op.apply x = .ok y) :
    Vec.InSpace n y ∧ Vec.tuple n y = op.asMatrix n *ᵥ Vec.tuple n x := by
  obtain ⟨f, rfl⟩ := hx.exists_eq
  have himage := apply_ofCoords h.wellFormed hop f
  rw [h.rows_eq, h.cols_eq] at himage
  rw [himage] at hy
  cases hy
  refine ⟨Vec.inSpace_ofCoords _ _, funext fun i ↦ ?_⟩
  rw [Vec.tuple_ofCoords, Vec.tuple_ofCoords]
  exact Finset.sum_range fun j ↦ op.coeff i j * f j

end Operator

namespace Projector

variable {p : Projector Extended} {a : DenseMatrix Extended} {v x y : Vec Extended}

theorem InNullSpace.inSpace (hx : p.InNullSpace x) : Vec.InSpace p.variableCount x :=
  ⟨hx.isReal, hx.length_eq⟩

/-- A vector and its projection have the same inner products with the null space. -/
theorem dotProduct_toNullSpace (hp : p.orthogonal.IsReal) (hx : Vec.InSpace p.variableCount x)
    (hy : p.toNullSpace x = .ok y) (hv : p.InNullSpace v) :
    Vec.tuple p.variableCount x ⬝ᵥ Vec.tuple p.variableCount v =
      Vec.tuple p.variableCount y ⬝ᵥ Vec.tuple p.variableCount v := by
  obtain ⟨f, rfl⟩ := hx.exists_eq
  obtain ⟨g, rfl, hg⟩ := hv
  rw [toNullSpace_ofCoords hp] at hy
  cases hy
  simp only [Vec.tuple_ofCoords, dotProduct, sub_mul, Finset.sum_sub_distrib]
  rw [eq_comm, sub_eq_self]
  rw [← Finset.sum_range fun i ↦ (∑ k ∈ Finset.range p.constraintCount, p.orthogonal.coeff i k
    * ∑ j ∈ Finset.range p.variableCount, p.orthogonal.coeff j k * f j) * g i]
  simp only [Finset.sum_mul]
  rw [Finset.sum_comm]
  refine Finset.sum_eq_zero fun k hk ↦ ?_
  have hterm : ∀ i, p.orthogonal.coeff i k
      * (∑ j ∈ Finset.range p.variableCount, p.orthogonal.coeff j k * f j) * g i =
      (∑ j ∈ Finset.range p.variableCount, p.orthogonal.coeff j k * f j)
        * (p.orthogonal.coeff i k * g i) := fun i ↦ by ring
  rw [Finset.sum_congr rfl fun i _ ↦ hterm i, ← Finset.mul_sum, hg k (Finset.mem_range.mp hk),
    mul_zero]

end Projector

/-! ## Quadratic functions -/

section Quadratic

variable {n : ℕ} {H : Matrix (Fin n) (Fin n) ℝ} {c x d : Fin n → ℝ}

/-- The quadratic function `½ x · H x + c · x`. -/
noncomputable def quadratic (H : Matrix (Fin n) (Fin n) ℝ) (c x : Fin n → ℝ) : ℝ :=
  1 / 2 * (x ⬝ᵥ H *ᵥ x) + c ⬝ᵥ x

@[simp] theorem quadratic_zero (H : Matrix (Fin n) (Fin n) ℝ) (c : Fin n → ℝ) :
    quadratic H c 0 = 0 := by
  rw [quadratic, zero_dotProduct, dotProduct_zero, mul_zero, add_zero]

theorem mulVec_dotProduct_comm (hH : H.IsSymm) (x y : Fin n → ℝ) :
    H *ᵥ x ⬝ᵥ y = H *ᵥ y ⬝ᵥ x := by
  rw [dotProduct_comm, dotProduct_mulVec, ← mulVec_transpose, hH.eq]

theorem quadratic_add_smul (hH : H.IsSymm) (t : ℝ) :
    quadratic H c (x + t • d) =
      quadratic H c x + t * ((H *ᵥ x + c) ⬝ᵥ d) + t ^ 2 / 2 * (H *ᵥ d ⬝ᵥ d) := by
  simp only [quadratic, mulVec_add, mulVec_smul, dotProduct_add, add_dotProduct, dotProduct_smul,
    smul_dotProduct, smul_eq_mul]
  rw [dotProduct_comm x (H *ᵥ d), mulVec_dotProduct_comm hH d x, dotProduct_comm d (H *ᵥ x),
    dotProduct_comm d (H *ᵥ d)]
  ring

/-- A part of the step to the minimum on a line does not raise the quadratic function. -/
theorem quadratic_le_of_part {g κ θ : ℝ} (hH : H.IsSymm) (hslope : (H *ᵥ x + c) ⬝ᵥ d = -g)
    (hcurvature : H *ᵥ d ⬝ᵥ d = κ) (hκ : 0 < κ) (h₀ : 0 ≤ θ) (h₁ : θ ≤ 1) :
    quadratic H c (x + (g / κ * θ) • d) ≤ quadratic H c x := by
  have hvalue : quadratic H c (x + (g / κ * θ) • d) =
      quadratic H c x - g ^ 2 / κ * (θ * (1 - θ / 2)) := by
    rw [quadratic_add_smul hH, hslope, hcurvature]
    field_simp
    ring
  rw [hvalue]
  exact sub_le_self _ (mul_nonneg (div_nonneg (sq_nonneg g) hκ.le)
    (mul_nonneg h₀ (by linarith)))

/-- Going down along a direction without positive curvature does not raise it either. -/
theorem quadratic_le_of_negative {g κ t : ℝ} (hH : H.IsSymm) (hslope : (H *ᵥ x + c) ⬝ᵥ d = -g)
    (hcurvature : H *ᵥ d ⬝ᵥ d = κ) (hg : 0 ≤ g) (hκ : κ ≤ 0) (ht : 0 ≤ t) :
    quadratic H c (x + t • d) ≤ quadratic H c x := by
  rw [quadratic_add_smul hH, hslope, hcurvature]
  have h₁ : 0 ≤ t * g := mul_nonneg ht hg
  have h₂ : t ^ 2 / 2 * κ ≤ 0 := mul_nonpos_of_nonneg_of_nonpos (by positivity) hκ
  linarith

end Quadratic

end LogBarrier
