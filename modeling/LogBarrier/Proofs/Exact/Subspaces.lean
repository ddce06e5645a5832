import LogBarrier.Proofs.Exact.Factorization

/-!
# The row space and the null space

The orthogonal factor that belongs to a matrix splits the space in two. The combinations of its
columns are the row space of the matrix, and the vectors orthogonal to all of them are its null
space. Solutions of least norm and images under the transpose are in the one, projected vectors are
in the other, and the norm of a sum of two of them is given by the theorem of Pythagoras.
-/

namespace LogBarrier

open Extended

theorem DenseMatrix.mulVec_eq_ok {m : DenseMatrix Extended} {x y : Vec Extended} (hm : m.IsReal)
    (hx : Vec.IsReal x) (h : m.mulVec x = .ok y) : x.length = m.cols
      ∧ y = Vec.ofCoords m.rows fun i ↦ ∑ j ∈ Finset.range m.cols, m.coeff i j * x.coord j := by
  have hlength : x.length = m.cols := by
    rw [mulVec] at h
    split at h
    next hlength => exact hlength
    next => cases h
  rw [← Vec.ofCoords_coord_of_length hx hlength, mulVec_ofCoords hm] at h
  exact ⟨hlength, (Except.ok.inj h).symm⟩

theorem DenseMatrix.trMulVec_eq_ok {m : DenseMatrix Extended} {x y : Vec Extended} (hm : m.IsReal)
    (hx : Vec.IsReal x) (h : m.trMulVec x = .ok y) : x.length = m.rows
      ∧ y = Vec.ofCoords m.cols fun j ↦ ∑ i ∈ Finset.range m.rows, m.coeff i j * x.coord i := by
  have hlength : x.length = m.rows := by
    rw [trMulVec] at h
    split at h
    next hlength => exact hlength
    next => cases h
  rw [← Vec.ofCoords_coord_of_length hx hlength, trMulVec_ofCoords hm] at h
  exact ⟨hlength, (Except.ok.inj h).symm⟩

namespace Projector

/-- The vector is a combination of the columns of the orthogonal factor. -/
def InRowSpace (p : Projector Extended) (x : Vec Extended) : Prop :=
  ∃ w : ℕ → ℝ, x = Vec.ofCoords p.variableCount fun i ↦
    ∑ k ∈ Finset.range p.constraintCount, p.orthogonal.coeff i k * w k

/-- The vector is orthogonal to the columns of the orthogonal factor. -/
def InNullSpace (p : Projector Extended) (x : Vec Extended) : Prop :=
  ∃ f : ℕ → ℝ, x = Vec.ofCoords p.variableCount f ∧ ∀ k < p.constraintCount,
    ∑ i ∈ Finset.range p.variableCount, p.orthogonal.coeff i k * f i = 0

variable {p : Projector Extended} {a : DenseMatrix Extended} {x y b : Vec Extended}

/-! ## Combinations -/

namespace InRowSpace

theorem isReal (hx : p.InRowSpace x) : Vec.IsReal x := by
  obtain ⟨w, rfl⟩ := hx
  exact Vec.isReal_ofCoords _ _

theorem length_eq (hx : p.InRowSpace x) : x.length = p.variableCount := by
  obtain ⟨w, rfl⟩ := hx
  exact Vec.length_ofCoords _ _

theorem zeros (p : Projector Extended) : p.InRowSpace (Vec.zeros p.variableCount) := by
  refine ⟨fun _ ↦ 0, ?_⟩
  rw [Vec.zeros_eq_ofCoords]
  exact Vec.ofCoords_congr fun i _ ↦ by simp

theorem scale (hx : p.InRowSpace x) (t : ℝ) : p.InRowSpace (Vec.scale x (real t)) := by
  obtain ⟨w, rfl⟩ := hx
  refine ⟨fun k ↦ w k * t, ?_⟩
  rw [Vec.scale_ofCoords]
  refine Vec.ofCoords_congr fun i _ ↦ ?_
  rw [Finset.sum_mul]
  exact Finset.sum_congr rfl fun k _ ↦ mul_assoc _ _ _

theorem neg (hx : p.InRowSpace x) : p.InRowSpace (Vec.neg x) := by
  obtain ⟨w, rfl⟩ := hx
  refine ⟨fun k ↦ -w k, ?_⟩
  rw [Vec.neg_ofCoords]
  refine Vec.ofCoords_congr fun i _ ↦ ?_
  simp only [mul_neg, Finset.sum_neg_distrib]

theorem add {z : Vec Extended} (hx : p.InRowSpace x) (hy : p.InRowSpace y)
    (h : Vec.add x y = .ok z) : p.InRowSpace z := by
  obtain ⟨w, rfl⟩ := hx
  obtain ⟨v, rfl⟩ := hy
  rw [Vec.add_ofCoords] at h
  cases h
  refine ⟨fun k ↦ w k + v k, Vec.ofCoords_congr fun i _ ↦ ?_⟩
  simp only [mul_add, Finset.sum_add_distrib]

theorem sub {z : Vec Extended} (hx : p.InRowSpace x) (hy : p.InRowSpace y)
    (h : Vec.sub x y = .ok z) : p.InRowSpace z := by
  obtain ⟨w, rfl⟩ := hx
  obtain ⟨v, rfl⟩ := hy
  rw [Vec.sub_ofCoords] at h
  cases h
  refine ⟨fun k ↦ w k - v k, Vec.ofCoords_congr fun i _ ↦ ?_⟩
  simp only [mul_sub, Finset.sum_sub_distrib]

end InRowSpace

namespace InNullSpace

theorem isReal (hx : p.InNullSpace x) : Vec.IsReal x := by
  obtain ⟨f, rfl, -⟩ := hx
  exact Vec.isReal_ofCoords _ _

theorem length_eq (hx : p.InNullSpace x) : x.length = p.variableCount := by
  obtain ⟨f, rfl, -⟩ := hx
  exact Vec.length_ofCoords _ _

theorem zeros (p : Projector Extended) : p.InNullSpace (Vec.zeros p.variableCount) :=
  ⟨fun _ ↦ 0, Vec.zeros_eq_ofCoords _, fun k _ ↦ by simp⟩

theorem scale (hx : p.InNullSpace x) (t : ℝ) : p.InNullSpace (Vec.scale x (real t)) := by
  obtain ⟨f, rfl, hf⟩ := hx
  refine ⟨fun i ↦ f i * t, Vec.scale_ofCoords _ _ _, fun k hk ↦ ?_⟩
  rw [← zero_mul t, ← hf k hk, Finset.sum_mul]
  exact Finset.sum_congr rfl fun i _ ↦ (mul_assoc _ _ _).symm

theorem neg (hx : p.InNullSpace x) : p.InNullSpace (Vec.neg x) := by
  obtain ⟨f, rfl, hf⟩ := hx
  refine ⟨fun i ↦ -f i, Vec.neg_ofCoords _ _, fun k hk ↦ ?_⟩
  simp only [mul_neg, Finset.sum_neg_distrib, hf k hk, neg_zero]

theorem add {z : Vec Extended} (hx : p.InNullSpace x) (hy : p.InNullSpace y)
    (h : Vec.add x y = .ok z) : p.InNullSpace z := by
  obtain ⟨f, rfl, hf⟩ := hx
  obtain ⟨g, rfl, hg⟩ := hy
  rw [Vec.add_ofCoords] at h
  cases h
  refine ⟨_, rfl, fun k hk ↦ ?_⟩
  simp only [mul_add, Finset.sum_add_distrib, hf k hk, hg k hk, add_zero]

theorem sub {z : Vec Extended} (hx : p.InNullSpace x) (hy : p.InNullSpace y)
    (h : Vec.sub x y = .ok z) : p.InNullSpace z := by
  obtain ⟨f, rfl, hf⟩ := hx
  obtain ⟨g, rfl, hg⟩ := hy
  rw [Vec.sub_ofCoords] at h
  cases h
  refine ⟨_, rfl, fun k hk ↦ ?_⟩
  simp only [mul_sub, Finset.sum_sub_distrib, hf k hk, hg k hk, sub_zero]

end InNullSpace

/-! ## Orthogonality -/

/-- **Pythagoras.** A vector of the row space and one of the null space are orthogonal. -/
theorem InRowSpace.sum_sq_add (hx : p.InRowSpace x) (hy : p.InNullSpace y) :
    ∑ i ∈ Finset.range p.variableCount, (x.coord i + y.coord i) * (x.coord i + y.coord i) =
      Vec.sumSq x + Vec.sumSq y := by
  obtain ⟨w, rfl⟩ := hx
  obtain ⟨g, rfl, hg⟩ := hy
  set f : ℕ → ℝ := fun i ↦ ∑ k ∈ Finset.range p.constraintCount, p.orthogonal.coeff i k * w k
    with hf
  have horthogonal : ∑ i ∈ Finset.range p.variableCount, f i * g i = 0 := by
    have hterm : ∀ i, f i * g i =
        ∑ k ∈ Finset.range p.constraintCount, w k * (p.orthogonal.coeff i k * g i) := fun i ↦ by
      rw [hf, Finset.sum_mul]
      exact Finset.sum_congr rfl fun k _ ↦ by ring
    rw [Finset.sum_congr rfl fun i _ ↦ hterm i, Finset.sum_comm]
    refine Finset.sum_eq_zero fun k hk ↦ ?_
    rw [← Finset.mul_sum, hg k (Finset.mem_range.mp hk), mul_zero]
  have hexpand : ∀ i ∈ Finset.range p.variableCount,
      (Vec.coord (Vec.ofCoords p.variableCount f) i + Vec.coord (Vec.ofCoords p.variableCount g) i)
        * (Vec.coord (Vec.ofCoords p.variableCount f) i
          + Vec.coord (Vec.ofCoords p.variableCount g) i) =
      f i * f i + g i * g i + 2 * (f i * g i) := by
    intro i hi
    rw [Vec.coord_ofCoords (Finset.mem_range.mp hi), Vec.coord_ofCoords (Finset.mem_range.mp hi)]
    ring
  rw [Finset.sum_congr rfl hexpand, Finset.sum_add_distrib, Finset.sum_add_distrib,
    ← Finset.mul_sum, horthogonal, mul_zero, add_zero, Vec.sumSq_ofCoords, Vec.sumSq_ofCoords]

/-! ## Where the vectors come from -/

theorem inRowSpace_of_minNormSolution (hp : p.IsReal) (hb : Vec.IsReal b)
    (h : p.minNormSolution b = .ok x) : p.InRowSpace x := by
  obtain ⟨y, hy, h⟩ := bind_eq_ok_iff.mp h
  have hyreal := (DenseMatrix.yields_solveTransposed hp.triangular hb).of_eq_ok hy
  exact ⟨y.coord, (DenseMatrix.mulVec_eq_ok hp.orthogonal hyreal h).2⟩

theorem inRowSpace_of_trMulVec (ha : a.IsReal)
    (hfactored : a.transpose.IsFactored p.orthogonal p.triangular) (hb : Vec.IsReal b)
    (h : a.trMulVec b = .ok x) : p.InRowSpace x := by
  have hrows : p.variableCount = a.cols := hfactored.rows_orthogonal
  have hcols : p.constraintCount = a.rows := hfactored.cols_orthogonal
  obtain ⟨-, rfl⟩ := DenseMatrix.trMulVec_eq_ok ha hb h
  refine ⟨fun k ↦ ∑ i ∈ Finset.range a.rows, p.triangular.coeff k i * b.coord i, ?_⟩
  rw [hrows, hcols]
  refine Vec.ofCoords_congr fun j hj ↦ ?_
  have hproduct : ∀ i ∈ Finset.range a.rows, a.coeff i j * b.coord i =
      ∑ k ∈ Finset.range a.rows,
        p.orthogonal.coeff j k * (p.triangular.coeff k i * b.coord i) := by
    intro i hi
    rw [← DenseMatrix.coeff_transpose hj (Finset.mem_range.mp hi),
      hfactored.product j hj i (Finset.mem_range.mp hi), Finset.sum_mul]
    exact Finset.sum_congr rfl fun k _ ↦ mul_assoc _ _ _
  rw [Finset.sum_congr rfl hproduct, Finset.sum_comm]
  exact Finset.sum_congr rfl fun k _ ↦ (Finset.mul_sum _ _ _).symm

theorem toNullSpace_ofCoords (hp : p.orthogonal.IsReal) (f : ℕ → ℝ) :
    p.toNullSpace (Vec.ofCoords p.variableCount f) = .ok (Vec.ofCoords p.variableCount fun i ↦
      f i - ∑ k ∈ Finset.range p.constraintCount, p.orthogonal.coeff i k
        * ∑ j ∈ Finset.range p.variableCount, p.orthogonal.coeff j k * f j) := by
  rw [toNullSpace, variableCount, DenseMatrix.trMulVec_ofCoords hp, ok_bind,
    DenseMatrix.mulVec_ofCoords hp, ok_bind, Vec.sub_ofCoords]
  rfl

/-- The projection takes away what a vector has in common with the columns. -/
theorem inNullSpace_of_toNullSpace
    (hfactored : a.transpose.IsFactored p.orthogonal p.triangular) (hx : Vec.IsReal x)
    (h : p.toNullSpace x = .ok y) : p.InNullSpace y := by
  have hrows : p.variableCount = a.transpose.rows := hfactored.rows_orthogonal
  have hcols : p.constraintCount = a.transpose.cols := hfactored.cols_orthogonal
  have hreal := hfactored.isReal_orthogonal
  obtain ⟨u, hu, -⟩ := bind_eq_ok_iff.mp h
  have hlength : x.length = p.variableCount := (DenseMatrix.trMulVec_eq_ok hreal hx hu).1
  rw [← Vec.ofCoords_coord_of_length hx hlength, toNullSpace_ofCoords hreal] at h
  cases h
  refine ⟨_, rfl, fun l hl ↦ ?_⟩
  -- What is taken away has the same inner product with a column as the vector itself.
  simp only [mul_sub, Finset.sum_sub_distrib]
  rw [hrows, hcols] at *
  rw [hfactored.sum_mul_combination _ hl, sub_self]

theorem mulVec_of_inNullSpace (ha : a.IsReal)
    (hfactored : a.transpose.IsFactored p.orthogonal p.triangular) (hx : p.InNullSpace x) :
    a.mulVec x = .ok (Vec.zeros a.rows) := by
  obtain ⟨f, rfl, hf⟩ := hx
  have hrows : p.variableCount = a.cols := hfactored.rows_orthogonal
  have hcols : p.constraintCount = a.rows := hfactored.cols_orthogonal
  rw [hrows, hcols] at hf
  rw [hrows, DenseMatrix.mulVec_ofCoords ha, Vec.zeros_eq_ofCoords]
  refine congrArg _ (Vec.ofCoords_congr fun i hi ↦ ?_)
  have hproduct : ∀ j ∈ Finset.range a.cols, a.coeff i j * f j =
      ∑ k ∈ Finset.range a.rows, p.triangular.coeff k i * (p.orthogonal.coeff j k * f j) := by
    intro j hj
    rw [← DenseMatrix.coeff_transpose (Finset.mem_range.mp hj) hi,
      hfactored.product j (Finset.mem_range.mp hj) i hi, Finset.sum_mul]
    refine Finset.sum_congr rfl fun k _ ↦ ?_
    change p.orthogonal.coeff j k * p.triangular.coeff k i * f j = _
    ring
  rw [Finset.sum_congr rfl hproduct, Finset.sum_comm]
  refine Finset.sum_eq_zero fun k hk ↦ ?_
  rw [← Finset.mul_sum, hf k (Finset.mem_range.mp hk), mul_zero]

theorem toNullSpace_of_inNullSpace (hp : p.orthogonal.IsReal) (hx : p.InNullSpace x) :
    p.toNullSpace x = .ok x := by
  obtain ⟨f, rfl, hf⟩ := hx
  rw [toNullSpace_ofCoords hp]
  refine congrArg _ (Vec.ofCoords_congr fun i _ ↦ ?_)
  rw [Finset.sum_eq_zero fun k hk ↦ ?_, sub_zero]
  rw [hf k (Finset.mem_range.mp hk), mul_zero]

end Projector

end LogBarrier
