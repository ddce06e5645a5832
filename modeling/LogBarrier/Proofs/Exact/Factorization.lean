import LogBarrier.Proofs.Exact.Orthogonalization
import LogBarrier.Proofs.Shape.Linear

/-!
# Projections of real matrices

The factors that are kept for a matrix of real numbers are exact factors of its transpose, so the
projections that are computed from them stay among the real vectors. This is so for every function
that factorizes exactly, of which the reflections are one. A matrix with a single row that is not
zero never counts as rank deficient.
-/

namespace LogBarrier

open Extended

theorem DenseMatrix.coeff_transpose {m : DenseMatrix Extended} {i j : ℕ} (hi : i < m.cols)
    (hj : j < m.rows) : m.transpose.coeff i j = m.coeff j i :=
  coeff_ofFn _ hi hj

theorem DenseMatrix.coord_diagonalEntries {m : DenseMatrix Extended} {i : ℕ}
    (hi : i < m.diagonalEntries.length) : m.diagonalEntries.coord i = m.coeff i i := by
  rw [diagonalEntries, List.length_map, List.length_range] at hi
  refine (Vec.coord_of_getElem? (a := m.entry i i) ?_).trans rfl
  rw [diagonalEntries, List.getElem?_map, List.getElem?_range hi]
  rfl

namespace Projector

structure IsReal (p : Projector Extended) : Prop where
  orthogonal : p.orthogonal.IsReal
  triangular : p.triangular.IsReal

/-- The projections belong to the matrix: they are made of the factors that some function finds
which factorizes exactly. -/
def BelongsTo (p : Projector Extended) (a : DenseMatrix Extended) : Prop :=
  ∃ factorize, DenseMatrix.Factorizes factorize ∧ ofMatrixBy factorize a = .ok p

variable {p : Projector Extended} {a : DenseMatrix Extended} {x : Vec Extended}

theorem belongsTo_of_ofMatrix (h : ofMatrix a = .ok p) : p.BelongsTo a :=
  ⟨DenseMatrix.qr, DenseMatrix.factorizes_qr, h⟩

namespace BelongsTo

theorem isFactored (h : p.BelongsTo a) (ha : a.IsReal) :
    a.transpose.IsFactored p.orthogonal p.triangular := by
  obtain ⟨factorize, hfactorize, h⟩ := h
  obtain ⟨hwide, ⟨hrows, rfl⟩ | ⟨-, rfl, -⟩⟩ := ofMatrixBy_eq_ok h
  · -- Without rows there is nothing to factorize.
    have hcols : a.transpose.cols = 0 := hrows
    exact {
      isReal_orthogonal := DenseMatrix.isReal_zeros _ _
      isReal_triangular := DenseMatrix.isReal_zeros _ _
      rows_orthogonal := rfl
      cols_orthogonal := hcols.symm
      rows_triangular := hcols.symm
      cols_triangular := hcols.symm
      orthonormal := fun j hj ↦ absurd hj (by rw [hcols]; exact Nat.not_lt_zero j)
      product := fun _ _ j hj ↦ absurd hj (by rw [hcols]; exact Nat.not_lt_zero j)
      triangular := fun i hi ↦ absurd hi (by rw [hcols]; exact Nat.not_lt_zero i) }
  · exact hfactorize a.transpose ha.transpose hwide

theorem isReal (h : p.BelongsTo a) (ha : a.IsReal) : p.IsReal :=
  ⟨(h.isFactored ha).isReal_orthogonal, (h.isFactored ha).isReal_triangular⟩

theorem regular (h : p.BelongsTo a) (ha : a.IsReal) (allowed : Fault → Prop) :
    p.Regular allowed a.rows a.cols := by
  obtain ⟨factorize, hfactorize, h⟩ := h
  have hwide := (ofMatrixBy_eq_ok h).1
  have hfactored := hfactorize a.transpose ha.transpose hwide
  exact regular_of_ofMatrixBy (.inl detectsZero)
    ⟨⟨hfactored.rows_orthogonal, hfactored.cols_orthogonal⟩, hfactored.rows_triangular,
      hfactored.cols_triangular⟩ h

end BelongsTo

theorem isReal_of_ofMatrix (ha : a.IsReal) (h : ofMatrix a = .ok p) : p.IsReal :=
  (belongsTo_of_ofMatrix h).isReal ha

theorem yields_toNullSpace (hp : p.IsReal) (hx : Vec.IsReal x) :
    Yields Vec.IsReal (p.toNullSpace x) :=
  (DenseMatrix.yields_trMulVec hp.orthogonal hx).bind fun _ hy ↦
    (DenseMatrix.yields_mulVec hp.orthogonal hy).bind fun _ hz ↦ Vec.yields_sub hx hz

theorem yields_coefficients (hp : p.IsReal) (hx : Vec.IsReal x) :
    Yields Vec.IsReal (p.coefficients x) :=
  (DenseMatrix.yields_trMulVec hp.orthogonal hx).bind fun _ hy ↦
    DenseMatrix.yields_solveUpper hp.triangular hy

theorem yields_minNormSolution (hp : p.IsReal) (hx : Vec.IsReal x) :
    Yields Vec.IsReal (p.minNormSolution x) :=
  (DenseMatrix.yields_solveTransposed hp.triangular hx).bind fun _ hy ↦
    DenseMatrix.yields_mulVec hp.orthogonal hy

theorem yields_minNormSolution_zeros (hp : p.IsReal) (m : ℕ) :
    Yields (fun x ↦ ∀ a ∈ x, a = 0) (p.minNormSolution (Vec.zeros m)) := by
  have hsolve : Yields (fun z ↦ ∀ a ∈ z, a = 0) (p.triangular.solveTransposed (Vec.zeros m)) := by
    rw [DenseMatrix.solveTransposed]
    split
    · exact DenseMatrix.yields_solveLowerFrom_zero hp.triangular
        (fun a ha ↦ (List.not_mem_nil ha).elim) fun a ha ↦ List.eq_of_mem_replicate ha
    · exact Ensures.error (by decide)
  refine hsolve.bind fun y hy ↦ ?_
  rw [DenseMatrix.mulVec]
  split
  · exact Ensures.ok (DenseMatrix.combination_eq_zero hp.orthogonal hy _)
  · exact Ensures.error (by decide)

/-! ## Matrices that count as of full row rank -/

/-- A diagonal whose entries are all of one size is not deficient. -/
theorem isDeficient_of_abs_eq {d : Vec Extended} {t : ℝ} {n : ℕ} (hd : Vec.IsReal d)
    (hne : d ≠ []) (ht : 0 < t) (hn : (n : ℝ) < 4503599627370496)
    (h : ∀ i < d.length, |d.coord i| = t) : isDeficient d n = false := by
  obtain ⟨largest, hlargest, -, hattained⟩ := Vec.maxNorm_eq hd
  obtain ⟨i, hi, hi'⟩ := hattained hne
  obtain rfl : t = largest := (h i hi).symm.trans hi'
  have hbeq : (real t == (0 : Extended)) = false := by
    rw [zero_eq, ← Bool.not_eq_true, real_beq]
    exact ht.ne'
  have htolerance : real t * (Scalar.epsilon * (n : Extended)) =
      real (t * (1 / 4503599627370496.0 * n)) := by
    rw [Scalar.epsilon, one_eq, ofScientific_eq, real_div (by norm_num), natCast_eq, real_mul,
      real_mul]
  have hlt : t * (1 / 4503599627370496.0 * n) < t := by
    refine mul_lt_of_lt_one_right ht ?_
    rw [one_div_mul_eq_div, div_lt_one (by norm_num)]
    exact hn.trans_eq (by norm_num)
  rw [isDeficient, hlargest, hbeq, Bool.false_or, List.any_eq_false]
  intro a ha
  obtain ⟨i, hi⟩ := List.mem_iff_getElem?.mp ha
  have habs := h i (List.getElem?_eq_some_iff.mp hi).1
  obtain ⟨x, rfl⟩ := hd a ha
  rw [Vec.coord_of_getElem? hi, toReal_real] at habs
  rw [htolerance, abs_real, habs, decide_eq_true_eq, real_le, not_le]
  exact hlt

/-- There are projections if all pivots are of one size. -/
theorem exists_ofMatrix {a : DenseMatrix Extended} {t : ℝ} (ha : a.transpose.IsReal)
    (hrows : 0 < a.rows) (hwide : a.rows ≤ a.cols) (hsmall : (a.cols : ℝ) < 4503599627370496)
    (ht : 0 < t)
    (hpivots : ∀ q r, a.transpose.IsFactored q r → ∀ i < a.rows, |r.coeff i i| = t) :
    ∃ p, ofMatrix a = .ok p := by
  have hfactored := DenseMatrix.isFactored_qr ha hwide
  have hlength : a.transpose.qr.2.diagonalEntries.length = a.rows := by
    rw [DenseMatrix.diagonalEntries, List.length_map, List.length_range,
      hfactored.rows_triangular, hfactored.cols_triangular, Nat.min_self]
    rfl
  have hreal : Vec.IsReal a.transpose.qr.2.diagonalEntries := by
    intro b hb
    obtain ⟨i, -, rfl⟩ := List.mem_map.mp hb
    exact hfactored.isReal_triangular.entry i i
  have hregular : isDeficient a.transpose.qr.2.diagonalEntries a.cols = false := by
    refine isDeficient_of_abs_eq hreal (List.ne_nil_of_length_pos (hlength ▸ hrows)) ht hsmall
      fun i hi ↦ ?_
    rw [DenseMatrix.coord_diagonalEntries hi]
    exact hpivots _ _ hfactored i (hlength ▸ hi)
  rw [ofMatrix, ofMatrixBy, if_neg (not_lt.mpr hwide), if_neg hrows.ne']
  exact ⟨_, if_neg (ne_true_of_eq_false hregular)⟩

/-- A single row that is not zero is factored, and then any vector has a coefficient. -/
theorem ofMatrix_of_row {a : DenseMatrix Extended} {r : List ℝ} (hrows : a.rows = 1)
    (hrow : a.transpose.columns = [r.map real]) (hr : 0 < (r.map (· ^ 2)).sum)
    (hsmall : (a.cols : ℝ) < 4503599627370496) :
    ∃ p, ofMatrix a = .ok p ∧ ∀ x, x.length = a.cols → ∃ u, p.coefficients x = .ok [u] := by
  have ha : a.transpose.IsReal := by
    rw [DenseMatrix.IsReal, hrow]
    exact List.forall_mem_singleton.mpr (Vec.isReal_iff.mpr ⟨r, rfl⟩)
  have hlength : (r.map real).length = a.cols :=
    a.transpose.length_of_mem_columns (r.map real) (hrow ▸ List.mem_singleton_self _)
  -- A row that is not zero has an entry, so the matrix is wide enough.
  have hwide : a.rows ≤ a.cols := by
    rw [hrows, ← hlength, List.length_map]
    refine List.length_pos_iff.mpr fun hnil ↦ ?_
    rw [hnil] at hr
    exact lt_irrefl _ hr
  have hcols : a.transpose.cols = 1 := hrows
  have hsum : ∑ l ∈ Finset.range a.transpose.rows, a.transpose.coeff l 0 * a.transpose.coeff l 0 =
      (r.map (· ^ 2)).sum := by
    have hnorm := Vec.normSq_eq (Vec.isReal_iff.mpr ⟨r, rfl⟩)
    rw [Vec.normSq_map_real, real_inj, Vec.sumSq, hlength] at hnorm
    rw [hnorm]
    refine Finset.sum_congr rfl fun l _ ↦ ?_
    have hentry : a.transpose.coeff l 0 = Vec.coord (r.map real) l := by
      rw [DenseMatrix.coeff, DenseMatrix.entry, hrow]
      rfl
    rw [hentry]
  obtain ⟨p, hp⟩ := exists_ofMatrix ha (by omega) hwide hsmall (Real.sqrt_pos.mpr hr)
    fun q s hfactored i hi ↦ by
      obtain rfl : i = 0 := by omega
      have hgram := hfactored.gram (i := 0) (j := 0) (by omega) (by omega)
      rw [hsum, hcols, Finset.sum_range_one] at hgram
      rw [hgram, Real.sqrt_mul_self_eq_abs]
  have hregular : p.Regular (fun _ ↦ False) a.rows a.cols :=
    regular_of_ofMatrix (.inl detectsZero) hp
  refine ⟨p, hp, fun x hx ↦ ?_⟩
  obtain ⟨u, hu, hcount⟩ := (ensures_coefficients hregular hx).exists_ok
  obtain ⟨b, rfl⟩ := List.length_eq_one_iff.mp (hcount.trans hrows)
  exact ⟨b, hu⟩

end Projector

end LogBarrier
