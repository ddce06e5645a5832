import LogBarrier.Proofs.Exact.Euclidean
import LogBarrier.Proofs.Shape.Linear
import Mathlib.LinearAlgebra.FiniteDimensional.Lemmas
import Mathlib.LinearAlgebra.Matrix.Block
import Mathlib.LinearAlgebra.Matrix.DotProduct

/-!
# Exact projections

The matrix `A` is `Rᵀ Qᵀ`, the columns of `Q` are orthonormal, and `R` is upper triangular. A zero
on the diagonal of `R` counts as a rank deficiency, so `R` can be inverted if there are projections
at all. Therefore they are exact:

* the vectors orthogonal to the columns of `Q` are those that `A` maps to zero,
* the combinations of the columns of `Q` are the images under `Aᵀ`, and
* the solution of `A x = b` that is computed is one, and it is shorter than any other.

## Triangular systems

The transposed system is solved from the first unknown to the last. What is known of the unknowns
found so far is not touched by the later ones, so every equation holds once its unknown is found.
-/

namespace LogBarrier

open Extended Matrix

theorem dotProduct_self_pos {n : ℕ} {v : Fin n → ℝ} (hv : v ≠ 0) : 0 < v ⬝ᵥ v :=
  (Finset.sum_nonneg fun i _ ↦ mul_self_nonneg (v i)).lt_of_ne fun h ↦
    hv (dotProduct_self_eq_zero.mp h.symm)

namespace Vec

variable {n : ℕ} {x y : Vec Extended}

noncomputable def ofTuple (f : Fin n → ℝ) : Vec Extended :=
  ofCoords n fun i ↦ if h : i < n then f ⟨i, h⟩ else 0

theorem inSpace_ofTuple (f : Fin n → ℝ) : InSpace n (ofTuple f) := inSpace_ofCoords _ _

@[simp] theorem tuple_ofTuple (f : Fin n → ℝ) : tuple n (ofTuple f) = f := by
  rw [ofTuple, tuple_ofCoords]
  exact funext fun i ↦ dif_pos i.2

theorem map_ofTuple {op : Extended → Extended} (φ : ℝ → ℝ) (h : ∀ a, op (real a) = real (φ a))
    (u : Fin n → ℝ) : (ofTuple u).map op = ofTuple fun i ↦ φ (u i) := by
  rw [ofTuple, map_ofCoords φ h]
  exact ofCoords_congr fun i hi ↦ by rw [dif_pos hi, dif_pos hi]

theorem inSpace_zeros (n : ℕ) : InSpace n (zeros n) := ⟨IsReal.zeros n, length_zeros n⟩

theorem InSpace.ext (hx : InSpace n x) (hy : InSpace n y) (h : tuple n x = tuple n y) : x = y := by
  obtain ⟨f, rfl⟩ := hx.exists_eq
  obtain ⟨g, rfl⟩ := hy.exists_eq
  rw [tuple_ofCoords, tuple_ofCoords] at h
  exact ofCoords_congr fun i hi ↦ congrFun h ⟨i, hi⟩

theorem InSpace.exists_eq_ofTuple (hx : InSpace n x) : ∃ u : Fin n → ℝ, x = ofTuple u :=
  ⟨tuple n x, hx.ext (inSpace_ofTuple _) (tuple_ofTuple _).symm⟩

theorem InSpace.sumSq_eq (hx : InSpace n x) : sumSq x = tuple n x ⬝ᵥ tuple n x := by
  have h := hx.dotSum_eq hx
  rwa [← normSq, normSq_eq hx.isReal, real_inj] at h

theorem InSpace.norm_eq (hx : InSpace n x) : norm x = real √(tuple n x ⬝ᵥ tuple n x) := by
  rw [Vec.norm_eq hx.isReal, hx.sumSq_eq]

theorem InSpace.add_eq_ok (hx : InSpace n x) (hy : InSpace n y) :
    ∃ z, Vec.add x y = .ok z ∧ InSpace n z ∧ tuple n z = tuple n x + tuple n y := by
  have h : Vec.add x y = .ok (List.zipWith (· + ·) x y) :=
    combine_eq_ok_iff.mpr ⟨hx.length_eq.trans hy.length_eq.symm, rfl⟩
  exact ⟨_, h, hx.add hy h⟩

/-- An inner product with a longer vector ignores what is beyond the end. -/
theorem dotSum_of_length_le (hx : IsReal x) (hy : IsReal y) (h : y.length ≤ x.length) :
    dotSum x y = real (∑ i ∈ Finset.range y.length, x.coord i * y.coord i) := by
  have htake : dotSum x y = dotSum (x.take y.length) y := by
    rw [dotSum, List.zipWith_eq_zipWith_take_min, min_eq_right h, List.take_length, dotSum]
  rw [htake, take_eq_ofCoords hx h]
  nth_rewrite 2 [← ofCoords_coord hy]
  exact dotSum_ofCoords _ _ _

end Vec

namespace DenseMatrix

variable {m n : ℕ} {k : DenseMatrix Extended} {x y : Vec Extended}

/-- The matrix consists of `m` rows of `n` real numbers. -/
structure InSpace (k : DenseMatrix Extended) (m n : ℕ) : Prop where
  isReal : k.IsReal
  rows_eq : k.rows = m
  cols_eq : k.cols = n

/-- The first `m` rows and `n` columns of a matrix. -/
noncomputable def asMatrix (k : DenseMatrix Extended) (m n : ℕ) : Matrix (Fin m) (Fin n) ℝ :=
  Matrix.of fun i j ↦ k.coeff i j

noncomputable def nullSpace (k : DenseMatrix Extended) : Submodule ℝ (Fin k.cols → ℝ) :=
  LinearMap.ker (k.asMatrix k.rows k.cols).mulVecLin

theorem InSpace.mulVec_eq_ok (hk : k.InSpace m n) (hx : Vec.InSpace n x) : ∃ y, k.mulVec x = .ok y
    ∧ Vec.InSpace m y ∧ Vec.tuple m y = k.asMatrix m n *ᵥ Vec.tuple n x := by
  obtain ⟨hreal, rfl, rfl⟩ := hk
  obtain ⟨f, rfl⟩ := hx.exists_eq
  refine ⟨_, mulVec_ofCoords hreal f, Vec.inSpace_ofCoords _ _, funext fun i ↦ ?_⟩
  rw [Vec.tuple_ofCoords, Vec.tuple_ofCoords]
  exact Finset.sum_range fun j ↦ k.coeff i j * f j

theorem InSpace.trMulVec_eq_ok (hk : k.InSpace m n) (hy : Vec.InSpace m y) :
    ∃ x, k.trMulVec y = .ok x
      ∧ Vec.InSpace n x ∧ Vec.tuple n x = (k.asMatrix m n)ᵀ *ᵥ Vec.tuple m y := by
  obtain ⟨hreal, rfl, rfl⟩ := hk
  obtain ⟨f, rfl⟩ := hy.exists_eq
  refine ⟨_, trMulVec_ofCoords hreal f, Vec.inSpace_ofCoords _ _, funext fun j ↦ ?_⟩
  rw [Vec.tuple_ofCoords, Vec.tuple_ofCoords]
  exact Finset.sum_range fun i ↦ k.coeff i j * f i

/-! ## Triangular systems -/

theorem dividePivot_eq_ok {a p : ℝ} {u : Extended} (h : dividePivot (real a) (real p) = .ok u) :
    ∃ r, u = real r ∧ p * r = a := by
  rw [dividePivot] at h
  split at h
  · cases h
  next hpivot =>
    have hp : p ≠ 0 := fun hp ↦ hpivot (real_beq.mpr hp)
    cases h
    exact ⟨a / p, real_div hp, mul_div_cancel₀ a hp⟩

/-- The unknowns that are found solve the equations of their columns, and those that were there
before stay as they are. -/
theorem solveLowerFrom_eq_ok {columns : List (Vec Extended)} {solved b z : Vec Extended}
    (hcolumns : ∀ c ∈ columns, Vec.IsReal c ∧ solved.length + columns.length ≤ c.length)
    (hsolved : Vec.IsReal solved) (hb : Vec.IsReal b) (hlength : b.length = columns.length)
    (h : solveLowerFrom solved columns b = .ok z) :
    Vec.InSpace (solved.length + columns.length) z
      ∧ (∀ i < solved.length, z.coord i = solved.coord i)
      ∧ ∀ j < columns.length, ∑ i ∈ Finset.range (solved.length + j + 1),
        (columns.getD j []).coord i * z.coord i = b.coord j := by
  induction columns generalizing solved b with
  | nil =>
    rw [solveLowerFrom.eq_def] at h
    cases h
    exact ⟨⟨hsolved, rfl⟩, fun _ _ ↦ rfl, fun j hj ↦ absurd hj (Nat.not_lt_zero j)⟩
  | cons c columns ih =>
    obtain _ | ⟨a, b⟩ := b
    · cases hlength
    rw [Vec.isReal_cons] at hb
    obtain ⟨⟨a, rfl⟩, hb⟩ := hb
    rw [List.forall_mem_cons] at hcolumns
    obtain ⟨⟨hc, hheight⟩, hcolumns⟩ := hcolumns
    rw [List.length_cons] at hheight
    obtain ⟨u, hu, h⟩ := bind_eq_ok_iff.mp h
    rw [Vec.dotSum_of_length_le hc hsolved (by omega), (hc.getD solved.length).eq, real_sub] at hu
    obtain ⟨r, rfl, hr⟩ := dividePivot_eq_ok hu
    have happend : (solved ++ [real r]).length = solved.length + 1 := List.length_append
    have hsolved' : Vec.IsReal (solved ++ [real r]) := by
      rw [Vec.IsReal, List.forall_mem_append, List.forall_mem_singleton]
      exact ⟨hsolved, isReal_real r⟩
    have hcolumns' : ∀ d ∈ columns, Vec.IsReal d
        ∧ (solved ++ [real r]).length + columns.length ≤ d.length := fun d hd ↦ by
      obtain ⟨hreal, hle⟩ := hcolumns d hd
      rw [List.length_cons] at hle
      rw [happend]
      exact ⟨hreal, by omega⟩
    obtain ⟨hz, hkept, hequations⟩ := ih hcolumns' hsolved' hb (Nat.succ.inj hlength) h
    rw [happend] at hz hkept hequations
    have hold : ∀ i < solved.length, z.coord i = solved.coord i := fun i hi ↦ by
      rw [hkept i (by omega), Vec.coord_append_left hi]
    have hnew : z.coord solved.length = r := by
      rw [hkept solved.length (Nat.lt_succ_self _), Vec.coord_append_right le_rfl, Nat.sub_self]
      rfl
    refine ⟨by rwa [List.length_cons, ← add_assoc, add_right_comm], hold, fun j hj ↦ ?_⟩
    obtain _ | j := j
    · rw [add_zero, Finset.sum_range_succ, hnew, Finset.sum_congr rfl fun i hi ↦ by
        rw [hold i (Finset.mem_range.mp hi)]]
      change _ + c.coord solved.length * r = a
      rw [Vec.coord, hr]
      exact add_sub_cancel _ _
    · have hequation := hequations j (Nat.lt_of_succ_lt_succ hj)
      rwa [add_right_comm solved.length 1 j] at hequation

theorem InSpace.solveTransposed_eq_ok {b u : Vec Extended} (hk : k.InSpace m m)
    (htriangular : (k.asMatrix m m).IsUpperTriangular) (hb : Vec.InSpace m b)
    (h : k.solveTransposed b = .ok u) :
    Vec.InSpace m u ∧ (k.asMatrix m m)ᵀ *ᵥ Vec.tuple m u = Vec.tuple m b := by
  obtain ⟨hreal, hrows, hcols⟩ := hk
  have hcount : k.columns.length = m := k.length_columns.trans hcols
  rw [solveTransposed, if_pos (hb.length_eq.trans hcols.symm)] at h
  have hheights : ∀ c ∈ k.columns,
      Vec.IsReal c ∧ ([] : Vec Extended).length + k.columns.length ≤ c.length := fun c hc ↦
    ⟨hreal c hc, by rw [k.length_of_mem_columns c hc, hrows, hcount]; exact (Nat.zero_add m).le⟩
  obtain ⟨hu, -, hequations⟩ := solveLowerFrom_eq_ok hheights Vec.isReal_nil hb.isReal
    (hb.length_eq.trans hcount.symm) h
  rw [List.length_nil, Nat.zero_add, hcount] at hu
  refine ⟨hu, funext fun j ↦ ?_⟩
  have hequation := hequations j (hcount ▸ j.2)
  rw [List.length_nil, Nat.zero_add] at hequation
  rw [Vec.tuple, ← hequation]
  change ∑ i : Fin m, k.coeff i j * u.coord i = _
  rw [← Finset.sum_range fun i ↦ k.coeff i j * u.coord i]
  refine (Finset.sum_subset (Finset.range_subset_range.mpr j.2) fun i hi hbelow ↦ ?_).symm
  rw [Finset.mem_range] at hi hbelow
  have hlt : j < ⟨i, hi⟩ := Fin.lt_def.mpr (show (j : ℕ) < i by omega)
  have hzero : k.coeff i j = 0 := htriangular hlt
  rw [hzero, zero_mul]

end DenseMatrix

/-! ## Factors -/

section Factors

variable {m n : ℕ}

/-- The matrix is the product of two transposed factors: the columns of the one are orthonormal, and
the other is upper triangular and can be inverted. -/
structure Factors (A : Matrix (Fin m) (Fin n) ℝ) (Q : Matrix (Fin n) (Fin m) ℝ)
    (R : Matrix (Fin m) (Fin m) ℝ) : Prop where
  orthonormal : Qᵀ * Q = 1
  product : A = Rᵀ * Qᵀ
  triangular : R.IsUpperTriangular
  isUnit : IsUnit R

namespace Factors

variable {A : Matrix (Fin m) (Fin n) ℝ} {Q : Matrix (Fin n) (Fin m) ℝ}
  {R : Matrix (Fin m) (Fin m) ℝ} {x y : Fin n → ℝ}

theorem mulVec_eq_zero_iff (h : Factors A Q R) : A *ᵥ x = 0 ↔ Qᵀ *ᵥ x = 0 := by
  have hinjective := mulVec_injective_of_isUnit ((isUnit_transpose R).mpr h.isUnit)
  rw [h.product, ← mulVec_mulVec]
  constructor
  · intro hzero
    exact hinjective (hzero.trans (mulVec_zero _).symm)
  · intro hzero
    rw [hzero, mulVec_zero]

/-- The combinations of the orthonormal columns are the combinations of the rows. -/
theorem exists_mulVec_eq_iff (h : Factors A Q R) : (∃ v, x = Q *ᵥ v) ↔ ∃ w, x = Aᵀ *ᵥ w := by
  have htranspose : Aᵀ = Q * R := by
    rw [h.product, transpose_mul, transpose_transpose, transpose_transpose]
  constructor
  · rintro ⟨v, rfl⟩
    refine ⟨R⁻¹ *ᵥ v, ?_⟩
    rw [htranspose, mulVec_mulVec, Matrix.mul_assoc,
      mul_nonsing_inv R ((isUnit_iff_isUnit_det R).mp h.isUnit), Matrix.mul_one]
  · rintro ⟨w, rfl⟩
    exact ⟨R *ᵥ w, by rw [htranspose, mulVec_mulVec]⟩

theorem mulVec_mulVec_orthogonal (h : Factors A Q R) (v : Fin m → ℝ) :
    A *ᵥ Q *ᵥ v = Rᵀ *ᵥ v := by
  rw [h.product, mulVec_mulVec, Matrix.mul_assoc, h.orthonormal, Matrix.mul_one]

end Factors

end Factors

namespace Projector

variable {p : Projector Extended} {a : DenseMatrix Extended} {x y b : Vec Extended}

/-- The projections are made of real factors of the matrix. -/
structure IsExact (p : Projector Extended) (a : DenseMatrix Extended) : Prop where
  matrix : a.IsReal
  regular : p.Regular (fun _ ↦ False) a.rows a.cols
  orthogonal : p.orthogonal.InSpace a.cols a.rows
  triangular : p.triangular.InSpace a.rows a.rows
  factors : Factors (a.asMatrix a.rows a.cols) (p.orthogonal.asMatrix a.cols a.rows)
    (p.triangular.asMatrix a.rows a.rows)

/-- Factors of the transpose without a zero pivot are exact. -/
theorem isExact_of_isFactored (ha : a.IsReal)
    (hfactored : a.transpose.IsFactored p.orthogonal p.triangular)
    (hregular : p.Regular (fun _ ↦ False) a.rows a.cols) : p.IsExact a := by
  have htriangular : (p.triangular.asMatrix a.rows a.rows).IsUpperTriangular := fun i j hij ↦
    hfactored.triangular i i.2 j hij
  refine ⟨ha, hregular,
    ⟨hfactored.isReal_orthogonal, hfactored.rows_orthogonal, hfactored.cols_orthogonal⟩,
    ⟨hfactored.isReal_triangular, hfactored.rows_triangular, hfactored.cols_triangular⟩,
    ⟨?_, ?_, htriangular, ?_⟩⟩
  · ext j k
    have horthonormal := hfactored.orthonormal j j.2 k k.2
    rw [Finset.sum_range] at horthonormal
    simp only [Matrix.one_apply, Fin.ext_iff]
    exact horthonormal
  · ext i j
    rw [Matrix.mul_apply]
    change a.coeff i j = _
    rw [← DenseMatrix.coeff_transpose j.2 i.2, hfactored.product j j.2 i i.2, Finset.sum_range]
    exact Finset.sum_congr rfl fun k _ ↦ mul_comm _ _
  · rw [isUnit_iff_isUnit_det, isUnit_iff_ne_zero, det_of_isUpperTriangular htriangular,
      Finset.prod_ne_zero_iff]
    intro i _ hzero
    -- A zero on the diagonal would be a pivot with which no system can be solved.
    refine hregular.pivots.2 i (hregular.cols_triangular.symm ▸ i.2) ?_
    rw [(hfactored.isReal_triangular.entry i i).eq, zero_eq, real_beq]
    exact hzero

theorem BelongsTo.isExact (h : p.BelongsTo a) (ha : a.IsReal) : p.IsExact a :=
  isExact_of_isFactored ha (h.isFactored ha) (h.regular ha _)

namespace IsExact

variable (hp : p.IsExact a)

include hp

theorem matrix_inSpace : a.InSpace a.rows a.cols := ⟨hp.matrix, rfl, rfl⟩

theorem inNullSpace_iff : p.InNullSpace x ↔
    Vec.InSpace a.cols x ∧ a.asMatrix a.rows a.cols *ᵥ Vec.tuple a.cols x = 0 := by
  rw [hp.factors.mulVec_eq_zero_iff, InNullSpace, hp.regular.variableCount,
    hp.regular.constraintCount]
  have hcolumn : ∀ (f : ℕ → ℝ) (k : Fin a.rows),
      ((p.orthogonal.asMatrix a.cols a.rows)ᵀ *ᵥ Vec.tuple a.cols (Vec.ofCoords a.cols f)) k =
        ∑ i ∈ Finset.range a.cols, p.orthogonal.coeff i k * f i := fun f k ↦ by
    rw [Vec.tuple_ofCoords]
    exact (Finset.sum_range fun i ↦ p.orthogonal.coeff i k * f i).symm
  constructor
  · rintro ⟨f, rfl, hf⟩
    exact ⟨Vec.inSpace_ofCoords _ f, funext fun k ↦ (hcolumn f k).trans (hf k k.2)⟩
  · rintro ⟨hx, hzero⟩
    obtain ⟨f, rfl⟩ := hx.exists_eq
    exact ⟨f, rfl, fun k hk ↦ (hcolumn f ⟨k, hk⟩).symm.trans (congrFun hzero ⟨k, hk⟩)⟩

theorem inRowSpace_iff : p.InRowSpace x ↔ Vec.InSpace a.cols x
    ∧ ∃ w, Vec.tuple a.cols x = (a.asMatrix a.rows a.cols)ᵀ *ᵥ w := by
  rw [← hp.factors.exists_mulVec_eq_iff, InRowSpace, hp.regular.variableCount,
    hp.regular.constraintCount]
  constructor
  · rintro ⟨w, rfl⟩
    refine ⟨Vec.inSpace_ofCoords _ _, fun k ↦ w k, ?_⟩
    rw [Vec.tuple_ofCoords]
    exact funext fun i ↦ Finset.sum_range fun k ↦ p.orthogonal.coeff i k * w k
  · rintro ⟨hx, v, hv⟩
    obtain ⟨w, rfl⟩ : ∃ w : ℕ → ℝ, v = fun k : Fin a.rows ↦ w k :=
      ⟨(Vec.ofTuple v).coord, (Vec.tuple_ofTuple v).symm⟩
    refine ⟨w, hx.ext (Vec.inSpace_ofCoords _ _) ?_⟩
    rw [hv, Vec.tuple_ofCoords]
    exact funext fun i ↦ (Finset.sum_range fun k ↦ p.orthogonal.coeff i k * w k).symm

theorem exists_trMulVec_eq_ok (hx : p.InRowSpace x) :
    ∃ w, Vec.IsReal w ∧ a.trMulVec w = .ok x := by
  obtain ⟨hspace, w, hw⟩ := hp.inRowSpace_iff.mp hx
  obtain ⟨z, hz, hzspace, htuple⟩ := hp.matrix_inSpace.trMulVec_eq_ok (Vec.inSpace_ofTuple w)
  rw [Vec.tuple_ofTuple, ← hw] at htuple
  exact ⟨Vec.ofTuple w, (Vec.inSpace_ofTuple w).isReal, hzspace.ext hspace htuple ▸ hz⟩

theorem minNormSolution_eq_ok (hb : Vec.InSpace a.rows b) : ∃ x, p.minNormSolution b = .ok x
    ∧ p.InRowSpace x
    ∧ a.asMatrix a.rows a.cols *ᵥ Vec.tuple a.cols x = Vec.tuple a.rows b := by
  obtain ⟨u, hu, -⟩ := (DenseMatrix.ensures_solveTransposed hp.regular.pivots
    (hb.length_eq.trans hp.regular.cols_triangular.symm)).exists_ok
  obtain ⟨huspace, hsolves⟩ := hp.triangular.solveTransposed_eq_ok hp.factors.triangular hb hu
  obtain ⟨x, hx, hxspace, htuple⟩ := hp.orthogonal.mulVec_eq_ok huspace
  refine ⟨x, bind_eq_ok_iff.mpr ⟨u, hu, hx⟩, hp.inRowSpace_iff.mpr ⟨hxspace, ?_⟩, ?_⟩
  · exact hp.factors.exists_mulVec_eq_iff.mp ⟨_, htuple⟩
  · rw [htuple, hp.factors.mulVec_mulVec_orthogonal, hsolves]

theorem inNullSpace_iff_mem :
    p.InNullSpace x ↔ Vec.InSpace a.cols x ∧ Vec.tuple a.cols x ∈ a.nullSpace := by
  rw [hp.inNullSpace_iff, DenseMatrix.nullSpace, LinearMap.mem_ker, Matrix.mulVecLin_apply]

theorem mulVec_eq_zeros_iff (hx : Vec.InSpace a.cols x) :
    a.mulVec x = .ok (Vec.zeros a.rows) ↔ p.InNullSpace x := by
  obtain ⟨y, hy, hyspace, htuple⟩ := hp.matrix_inSpace.mulVec_eq_ok hx
  rw [hp.inNullSpace_iff, ← htuple, hy]
  constructor
  · intro hzero
    rw [Except.ok.inj hzero, Vec.tuple_zeros]
    exact ⟨hx, rfl⟩
  · rintro ⟨-, hzero⟩
    rw [hyspace.ext (Vec.inSpace_zeros _) (hzero.trans (Vec.tuple_zeros _).symm)]

theorem range_eq_top : LinearMap.range (a.asMatrix a.rows a.cols).mulVecLin = ⊤ := by
  refine LinearMap.range_eq_top.mpr fun b ↦ ?_
  obtain ⟨x, -, -, hx⟩ := hp.minNormSolution_eq_ok (Vec.inSpace_ofTuple b)
  rw [Vec.tuple_ofTuple] at hx
  exact ⟨Vec.tuple a.cols x, hx⟩

theorem finrank_nullSpace : Module.finrank ℝ a.nullSpace = a.cols - a.rows := by
  have hrank := (a.asMatrix a.rows a.cols).mulVecLin.finrank_range_add_finrank_ker
  rw [hp.range_eq_top, finrank_top, Module.finrank_fin_fun, Module.finrank_fin_fun] at hrank
  exact Nat.eq_sub_of_add_eq' hrank

/-- **Pythagoras.** What is added to a vector of the row space without changing its image makes it
longer. -/
theorem sumSq_eq_add (hx : p.InRowSpace x) (hy : Vec.InSpace a.cols y) {v : Fin a.cols → ℝ}
    (hv : a.asMatrix a.rows a.cols *ᵥ v = 0)
    (hsum : Vec.tuple a.cols y = Vec.tuple a.cols x + v) :
    Vec.sumSq y = Vec.sumSq x + v ⬝ᵥ v := by
  obtain ⟨hspace, w, hw⟩ := hp.inRowSpace_iff.mp hx
  have horthogonal : Vec.tuple a.cols x ⬝ᵥ v = 0 := by
    rw [hw, mulVec_transpose, ← dotProduct_mulVec, hv, dotProduct_zero]
  rw [hy.sumSq_eq, hspace.sumSq_eq, hsum, add_dotProduct, dotProduct_add, dotProduct_add,
    dotProduct_comm v, horthogonal, add_zero, zero_add]

end IsExact

end Projector

end LogBarrier
