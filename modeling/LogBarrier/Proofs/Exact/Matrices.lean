import LogBarrier.Proofs.Exact.Projections
import LogBarrier.Proofs.Exact.Rows

/-!
# Matrices and their entries

A matrix of real numbers in a known shape is a matrix in the sense of linear algebra. Whatever is
built entry by entry from real numbers is such a matrix, so an operation on matrices is known as
soon as its entries are.
-/

namespace LogBarrier

open Extended Matrix

namespace DenseMatrix

variable {k l : DenseMatrix Extended} {m n : ℕ}

theorem isReal_ofColumns {rows : ℕ} {columns : List (Vec Extended)}
    (h : ∀ c ∈ columns, Vec.IsReal c) : (ofColumns rows columns).IsReal := by
  intro c hc
  obtain ⟨x, hx, rfl⟩ := List.mem_map.mp hc
  exact Vec.isReal_append.mpr ⟨(h x hx).take rows, Vec.IsReal.zeros _⟩

theorem InSpace.ext (hk : k.InSpace m n) (hl : l.InSpace m n)
    (h : k.asMatrix m n = l.asMatrix m n) : k = l := by
  obtain ⟨hkreal, rfl, rfl⟩ := hk
  obtain ⟨hlreal, hrows, hcols⟩ := hl
  refine ext_entry hrows.symm hcols.symm fun i hi j hj ↦ ?_
  rw [(hkreal.entry i j).eq, (hlreal.entry i j).eq]
  exact congrArg real (congrFun (congrFun h ⟨i, hi⟩) ⟨j, hj⟩)

/-! ## Matrices that are built entry by entry -/

theorem inSpace_ofFn {f : ℕ → ℕ → Extended} (φ : ℕ → ℕ → ℝ) (h : ∀ i j, f i j = real (φ i j)) :
    (ofFn m n f).InSpace m n
      ∧ (ofFn m n f).asMatrix m n = Matrix.of fun (i : Fin m) (j : Fin n) ↦ φ i j := by
  refine ⟨⟨isReal_ofFn fun i j ↦ ?_, rfl, rfl⟩, Matrix.ext fun i j ↦ ?_⟩
  · rw [h]
    exact isReal_real _
  · refine (coeff_ofFn f i.2 j.2).trans ?_
    rw [h]
    rfl

theorem InSpace.transpose (hk : k.InSpace m n) :
    k.transpose.InSpace n m ∧ k.transpose.asMatrix n m = (k.asMatrix m n)ᵀ := by
  obtain ⟨hreal, rfl, rfl⟩ := hk
  exact inSpace_ofFn (fun i j ↦ k.coeff j i) fun i j ↦ (hreal.entry j i).eq

theorem inSpace_identity (n : ℕ) :
    (identity n : DenseMatrix Extended).InSpace n n ∧ (identity n).asMatrix n n = 1 := by
  have hentry : ∀ i j : ℕ, (if i = j then 1 else 0 : Extended) = real (if i = j then 1 else 0) :=
    fun i j ↦ (apply_ite real _ _ _).symm
  obtain ⟨hspace, hmatrix⟩ := inSpace_ofFn (m := n) (n := n) _ hentry
  refine ⟨hspace, hmatrix.trans (Matrix.ext fun i j ↦ ?_)⟩
  simp only [Matrix.of_apply, Matrix.one_apply, Fin.ext_iff]

theorem InSpace.scale (hk : k.InSpace m n) (a : ℝ) :
    (k.scale (real a)).InSpace m n ∧ (k.scale (real a)).asMatrix m n = a • k.asMatrix m n := by
  obtain ⟨hreal, rfl, rfl⟩ := hk
  refine inSpace_ofFn (fun i j ↦ a • k.coeff i j) fun i j ↦ ?_
  rw [(hreal.entry i j).eq, real_mul, smul_eq_mul, mul_comm]
  rfl

theorem InSpace.zipWith (hk : k.InSpace m n) (hl : l.InSpace m n)
    {op : Extended → Extended → Extended} (φ : ℝ → ℝ → ℝ)
    (hop : ∀ a b, op (real a) (real b) = real (φ a b)) :
    (k.zipWith op l).InSpace m n ∧ (k.zipWith op l).asMatrix m n =
      Matrix.of fun i j ↦ φ (k.asMatrix m n i j) (l.asMatrix m n i j) := by
  obtain ⟨hkreal, rfl, rfl⟩ := hk
  refine inSpace_ofFn (fun i j ↦ φ (k.coeff i j) (l.coeff i j)) fun i j ↦ ?_
  rw [(hkreal.entry i j).eq, (hl.isReal.entry i j).eq, hop]
  rfl

theorem inSpace_ofRows {rows : List (Vec Extended)} (h : ∀ r ∈ rows, Vec.IsReal r) (n : ℕ) :
    (ofRows n rows).InSpace rows.length n ∧ (ofRows n rows).asMatrix rows.length n =
      Matrix.of fun (i : Fin rows.length) (j : Fin n) ↦ Vec.coord (rows.getD i []) j :=
  inSpace_ofFn (fun i j ↦ Vec.coord (rows.getD i []) j) fun i j ↦
    ((isReal_getD h i).getD j).eq

theorem inSpace_diagonal_replicate (n : ℕ) (a : ℝ) :
    (diagonal (List.replicate n (real a))).InSpace n n
      ∧ (diagonal (List.replicate n (real a))).asMatrix n n = a • 1 := by
  have hlength : (List.replicate n (real a)).length = n := List.length_replicate
  have hentry : ∀ i j, (if i = j then (List.replicate n (real a)).getD i 0 else 0) =
      real (if i = j then Vec.coord (List.replicate n (real a)) i else 0) := by
    intro i j
    rw [((Vec.IsReal.replicate (isReal_real a) n).getD i).eq]
    exact (apply_ite real _ _ _).symm
  obtain ⟨hspace, hmatrix⟩ := inSpace_ofFn (m := n) (n := n) _ hentry
  rw [diagonal, hlength]
  refine ⟨hspace, hmatrix.trans (Matrix.ext fun i j ↦ ?_)⟩
  rw [Matrix.of_apply, Matrix.smul_apply, Matrix.one_apply, smul_eq_mul]
  by_cases hij : i = j
  · rw [if_pos (congrArg Fin.val hij), if_pos hij, mul_one,
      Vec.coord_of_getElem? (List.getElem?_replicate_of_lt i.2)]
    rfl
  · rw [if_neg fun h ↦ hij (Fin.ext h), if_neg hij, mul_zero]

/-- The Gram matrix has the inner products of the columns as its entries. -/
theorem InSpace.gram (hk : k.InSpace m n) :
    k.gram.InSpace n n ∧ k.gram.asMatrix n n = (k.asMatrix m n)ᵀ * k.asMatrix m n := by
  obtain ⟨hreal, rfl, rfl⟩ := hk
  have hgram : k.gram = ofColumns k.cols (Vec.family k.cols k.cols fun j i ↦
      ∑ t ∈ Finset.range k.rows, k.coeff t i * k.coeff t j) := by
    rw [DenseMatrix.gram, columns_eq hreal, List.map_map, Vec.family]
    refine congrArg _ (List.map_congr_left fun j _ ↦ ?_)
    rw [Function.comp_apply, List.map_map]
    exact List.map_congr_left fun i _ ↦ Vec.dotSum_ofCoords _ _ _
  obtain ⟨hreal', hcoeff⟩ := ofColumns_family k.cols k.cols fun j i ↦
    ∑ t ∈ Finset.range k.rows, k.coeff t i * k.coeff t j
  rw [hgram]
  refine ⟨⟨hreal', rfl, Vec.length_family _ _ _⟩, Matrix.ext fun i j ↦ ?_⟩
  refine (hcoeff i i.2 j j.2).trans ?_
  rw [Finset.sum_range, Matrix.mul_apply]
  rfl

end DenseMatrix

end LogBarrier
