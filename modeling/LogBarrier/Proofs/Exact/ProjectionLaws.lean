import LogBarrier.Proofs.Exact.Projections
import LogBarrier.Proofs.Exact.Rows
import Mathlib.LinearAlgebra.Matrix.Rank

/-!
# The laws of the projections

The projection to the null space, the coefficients of the nearest combination of rows and the
solution of least norm are computed from the same two factors, each in its own way. Here the laws
are proved that tie them to each other and to the matrix, and that there are no projections at all
if the rows are not independent.

## Any factorization

The laws do not depend on how the factors are found. All that is used is that the product of the
factors is the transposed matrix, that the columns of the first factor are orthonormal and that the
second one is upper triangular. So they are proved for any such factorization, of which the
reflections are one.

## Back substitution

The unknowns are found from the last to the first. An equation holds once its unknown is found,
since those to the left of the diagonal do not occur in it.
-/

namespace LogBarrier

open Extended Matrix

namespace DenseMatrix

variable {m : ℕ} {r : DenseMatrix Extended} {b y : Vec Extended}

/-! ## Back substitution -/

theorem foldr_sub_ofCoords (n : ℕ) (f g : ℕ → ℝ) (c : ℝ) :
    (List.zip (Vec.ofCoords n f) (Vec.ofCoords n g)).foldr (fun (a, u) acc ↦ acc - u * a) (real c) =
      real (c - ∑ j ∈ Finset.range n, f j * g j) := by
  induction n generalizing f g with
  | zero => exact congrArg real (sub_zero c).symm
  | succ n ih =>
    rw [Vec.ofCoords_succ, Vec.ofCoords_succ, List.zip_cons_cons, List.foldr_cons, ih]
    dsimp only
    rw [Finset.sum_range_succ', real_mul, real_sub, mul_comm (g 0), sub_sub]

theorem drop_row_eq (hr : r.IsReal) (i k : ℕ) :
    (r.row i).drop k = Vec.ofCoords (r.cols - k) fun j ↦ r.coeff i (k + j) := by
  have hlength : (r.row i).length = r.cols := by rw [row, List.length_map, r.length_columns]
  refine Vec.eq_ofCoords ((hr.row i).drop k) (by rw [List.length_drop, hlength]) fun j hj ↦ ?_
  rw [Vec.coord_drop, row_eq, Vec.coord, List.getD_eq_getElem?_getD, List.getElem?_map,
    List.getElem?_range (by omega)]
  rfl

/-- The unknowns from number `i` on solve the equations from number `i` on. -/
theorem solveUpperFrom_eq_ok (hr : r.IsReal) (hb : Vec.IsReal b) {i count : ℕ}
    (hcount : i + count = r.cols) (h : r.solveUpperFrom b i count = .ok y) :
    Vec.InSpace count y ∧ ∀ k < count,
      ∑ j ∈ Finset.range (count - k), r.coeff (i + k) (i + k + j) * y.coord (k + j) =
        b.coord (i + k) := by
  induction count generalizing i y with
  | zero =>
    cases h
    exact ⟨⟨Vec.isReal_nil, rfl⟩, nofun⟩
  | succ count ih =>
    obtain ⟨rest, hrest, h⟩ := bind_eq_ok_iff.mp h
    obtain ⟨u, hu, h⟩ := bind_eq_ok_iff.mp h
    cases h
    obtain ⟨hspace, hequations⟩ := ih (by omega) hrest
    have hwidth : r.cols - (i + 1) = count := by omega
    rw [drop_row_eq hr, hwidth, ← Vec.ofCoords_coord_of_length hspace.isReal hspace.length_eq,
      (hb.getD i).eq, (hr.entry i i).eq, foldr_sub_ofCoords] at hu
    obtain ⟨t, rfl, ht⟩ := dividePivot_eq_ok hu
    refine ⟨⟨Vec.isReal_cons.mpr ⟨isReal_real t, hspace.isReal⟩, by
      rw [List.length_cons, hspace.length_eq]⟩, ?_⟩
    intro k hk
    obtain _ | k := k
    · -- The first equation is the one that has just been solved.
      rw [Nat.sub_zero, Finset.sum_range_succ', ← eq_sub_iff_add_eq']
      simp only [Nat.add_zero, Nat.zero_add, Vec.coord_cons_succ]
      have hterm : ∀ j, r.coeff i (i + (j + 1)) = r.coeff i (i + 1 + j) := fun j ↦ by
        rw [Nat.add_right_comm, Nat.add_assoc]
      simp only [hterm]
      exact ht
    · have hequation := hequations k (Nat.lt_of_succ_lt_succ hk)
      rw [Nat.succ_sub_succ_eq_sub, ← Nat.add_assoc, Nat.add_right_comm i k 1]
      simp only [Nat.add_right_comm k 1, Vec.coord_cons_succ]
      exact hequation

theorem InSpace.solveUpper_eq_ok {u : Vec Extended} (hr : r.InSpace m m)
    (htriangular : (r.asMatrix m m).IsUpperTriangular) (hb : Vec.InSpace m b)
    (h : r.solveUpper b = .ok u) :
    Vec.InSpace m u ∧ r.asMatrix m m *ᵥ Vec.tuple m u = Vec.tuple m b := by
  obtain ⟨hreal, hrows, hcols⟩ := hr
  rw [solveUpper, if_pos (hb.length_eq.trans hcols.symm), hcols] at h
  obtain ⟨hu, hequations⟩ := solveUpperFrom_eq_ok hreal hb.isReal
    (show 0 + m = r.cols by rw [hcols, Nat.zero_add]) h
  refine ⟨hu, funext fun i ↦ ?_⟩
  have hequation := hequations i i.2
  simp only [Nat.zero_add] at hequation
  rw [Vec.tuple, ← hequation]
  change ∑ j : Fin m, r.coeff i j * u.coord j = _
  have hleft : ∑ j ∈ Finset.range i, r.coeff i j * u.coord j = 0 := by
    refine Finset.sum_eq_zero fun j hj ↦ ?_
    have hlt : (⟨j, (Finset.mem_range.mp hj).trans i.2⟩ : Fin m) < i := Finset.mem_range.mp hj
    have hzero : r.coeff i j = 0 := htriangular hlt
    rw [hzero, zero_mul]
  have hsplit := Finset.sum_range_add (fun j ↦ r.coeff i j * u.coord j) i (m - i)
  rwa [Nat.add_sub_of_le i.2.le, hleft, zero_add,
    Finset.sum_range fun j ↦ r.coeff i j * u.coord j] at hsplit

end DenseMatrix

/-! ## The null part -/

section NullPart

variable {m n : ℕ}

/-- What remains of a vector without its part in the span of the columns. -/
noncomputable def nullPart (Q : Matrix (Fin n) (Fin m) ℝ) (x : Fin n → ℝ) : Fin n → ℝ :=
  x - Q *ᵥ Qᵀ *ᵥ x

variable {A : Matrix (Fin m) (Fin n) ℝ} {Q : Matrix (Fin n) (Fin m) ℝ}
  {R : Matrix (Fin m) (Fin m) ℝ} {x : Fin n → ℝ}

theorem dotProduct_nullPart_comm (Q : Matrix (Fin n) (Fin m) ℝ) (x y : Fin n → ℝ) :
    nullPart Q x ⬝ᵥ y = x ⬝ᵥ nullPart Q y := by
  have hsplit : ∀ u v : Fin n → ℝ, (Q *ᵥ Qᵀ *ᵥ u) ⬝ᵥ v = Qᵀ *ᵥ u ⬝ᵥ Qᵀ *ᵥ v := by
    intro u v
    rw [dotProduct_comm, dotProduct_mulVec, ← mulVec_transpose, dotProduct_comm]
  rw [nullPart, nullPart, sub_dotProduct, dotProduct_sub, hsplit,
    dotProduct_comm x (Q *ᵥ Qᵀ *ᵥ y), hsplit, dotProduct_comm (Qᵀ *ᵥ y)]

theorem nullPart_add (Q : Matrix (Fin n) (Fin m) ℝ) (x y : Fin n → ℝ) :
    nullPart Q (x + y) = nullPart Q x + nullPart Q y := by
  rw [nullPart, nullPart, nullPart, mulVec_add, mulVec_add]
  abel

namespace Factors

variable (h : Factors A Q R)

include h

theorem transpose_mulVec (w : Fin m → ℝ) : Aᵀ *ᵥ w = Q *ᵥ R *ᵥ w := by
  rw [h.product, transpose_mul, transpose_transpose, transpose_transpose, mulVec_mulVec]

theorem mulVec_injective : Function.Injective (R *ᵥ ·) := mulVec_injective_of_isUnit h.isUnit

theorem transpose_mulVec_mulVec (w : Fin m → ℝ) : Qᵀ *ᵥ Q *ᵥ w = w := by
  rw [mulVec_mulVec, h.orthonormal, one_mulVec]

theorem mulVec_nullPart (x : Fin n → ℝ) : A *ᵥ nullPart Q x = 0 := by
  rw [h.mulVec_eq_zero_iff, nullPart, mulVec_sub, h.transpose_mulVec_mulVec, sub_self]

theorem nullPart_eq_self_iff : nullPart Q x = x ↔ A *ᵥ x = 0 := by
  rw [nullPart, sub_eq_self, h.mulVec_eq_zero_iff]
  constructor
  · intro hzero
    rw [← h.transpose_mulVec_mulVec (Qᵀ *ᵥ x), hzero, mulVec_zero]
  · intro hzero
    rw [hzero, mulVec_zero]

/-- Combinations of the rows have no null part. -/
theorem nullPart_transpose_mulVec (w : Fin m → ℝ) : nullPart Q (Aᵀ *ᵥ w) = 0 := by
  rw [nullPart, h.transpose_mulVec, h.transpose_mulVec_mulVec, sub_self]

end Factors

end NullPart

/-! ## The operations -/

namespace Vec

variable {n : ℕ} {x y : Vec Extended}

theorem InSpace.sub_eq_ok (hx : InSpace n x) (hy : InSpace n y) :
    ∃ z, Vec.sub x y = .ok z ∧ InSpace n z ∧ tuple n z = tuple n x - tuple n y := by
  have h : Vec.sub x y = .ok (List.zipWith (· - ·) x y) :=
    combine_eq_ok_iff.mpr ⟨hx.length_eq.trans hy.length_eq.symm, rfl⟩
  exact ⟨_, h, hx.sub hy h⟩

end Vec

namespace Projector

variable {p : Projector Extended} {a : DenseMatrix Extended} {x y b : Vec Extended}
  {factorize : DenseMatrix Extended → DenseMatrix Extended × DenseMatrix Extended}

namespace IsExact

variable (hp : p.IsExact a)

include hp

theorem toNullSpace_eq_ok (hx : Vec.InSpace a.cols x) : ∃ y, p.toNullSpace x = .ok y
    ∧ Vec.InSpace a.cols y ∧ Vec.tuple a.cols y =
      nullPart (p.orthogonal.asMatrix a.cols a.rows) (Vec.tuple a.cols x) := by
  obtain ⟨u, hu, huspace, hutuple⟩ := hp.orthogonal.trMulVec_eq_ok hx
  obtain ⟨v, hv, hvspace, hvtuple⟩ := hp.orthogonal.mulVec_eq_ok huspace
  obtain ⟨y, hy, hyspace, hytuple⟩ := hx.sub_eq_ok hvspace
  refine ⟨y, bind_eq_ok_iff.mpr ⟨u, hu, bind_eq_ok_iff.mpr ⟨v, hv, hy⟩⟩, hyspace, ?_⟩
  rw [hytuple, hvtuple, hutuple, nullPart]

theorem solveUpper_eq_ok (hb : Vec.InSpace a.rows b) : ∃ u, p.triangular.solveUpper b = .ok u
    ∧ Vec.InSpace a.rows u
    ∧ p.triangular.asMatrix a.rows a.rows *ᵥ Vec.tuple a.rows u = Vec.tuple a.rows b := by
  obtain ⟨u, hu, -⟩ := (DenseMatrix.ensures_solveUpper hp.regular.pivots
    (hb.length_eq.trans hp.regular.cols_triangular.symm)).exists_ok
  exact ⟨u, hu, hp.triangular.solveUpper_eq_ok hp.factors.triangular hb hu⟩

theorem coefficients_eq_ok (hx : Vec.InSpace a.cols x) : ∃ w, p.coefficients x = .ok w
    ∧ Vec.InSpace a.rows w
    ∧ p.triangular.asMatrix a.rows a.rows *ᵥ Vec.tuple a.rows w =
      (p.orthogonal.asMatrix a.cols a.rows)ᵀ *ᵥ Vec.tuple a.cols x := by
  obtain ⟨u, hu, huspace, hutuple⟩ := hp.orthogonal.trMulVec_eq_ok hx
  obtain ⟨w, hw, hwspace, hwtuple⟩ := hp.solveUpper_eq_ok huspace
  exact ⟨w, bind_eq_ok_iff.mpr ⟨u, hu, hw⟩, hwspace, hwtuple.trans hutuple⟩

end IsExact

/-! ## The laws -/

/-- The laws of the projections of a matrix. Every operation gives a result for every vector of real
numbers of the right length. -/
structure Laws (p : Projector Extended) (a : DenseMatrix Extended) : Prop where
  /-- No pivot is zero, and no triangular system is left unsolved. -/
  pivots : (∀ i < a.rows, ∃ t : ℝ, t ≠ 0 ∧ p.triangular.entry i i = real t)
    ∧ ∀ b, Vec.InSpace a.rows b →
      (∃ u, p.triangular.solveUpper b = .ok u) ∧ ∃ u, p.triangular.solveTransposed b = .ok u
  /-- The matrix maps a projected vector to zero, and another projection does not change it. -/
  projected : ∀ x, Vec.InSpace a.cols x → ∃ y, p.toNullSpace x = .ok y
    ∧ a.mulVec y = .ok (Vec.zeros a.rows) ∧ p.toNullSpace y = .ok y
  /-- The projection leaves exactly the vectors as they are that are mapped to zero. -/
  fixed_iff : ∀ x, Vec.InSpace a.cols x →
    (p.toNullSpace x = .ok x ↔ a.mulVec x = .ok (Vec.zeros a.rows))
  /-- The projection can be moved to the other side of an inner product. -/
  selfAdjoint : ∀ x y, Vec.InSpace a.cols x → Vec.InSpace a.cols y → ∃ x' y', ∃ t : ℝ,
    p.toNullSpace x = .ok x' ∧ p.toNullSpace y = .ok y'
      ∧ Vec.dot x' y = .ok (real t) ∧ Vec.dot x y' = .ok (real t)
  /-- A vector is its projection and the combination of rows that the coefficients give. -/
  splits : ∀ x, Vec.InSpace a.cols x → ∃ y w u, p.toNullSpace x = .ok y
    ∧ p.coefficients x = .ok w ∧ a.trMulVec w = .ok u ∧ Vec.add y u = .ok x
  /-- The coefficients of a combination of rows are found. -/
  coefficients : ∀ w, Vec.InSpace a.rows w →
    ∃ x, a.trMulVec w = .ok x ∧ p.coefficients x = .ok w
  /-- The solution of least norm is one, and any other that is not longer is the same. -/
  minNormSolution : ∀ b, Vec.InSpace a.rows b → ∃ x, p.minNormSolution b = .ok x
    ∧ a.mulVec x = .ok b ∧ ∀ u, Vec.InSpace a.cols u → a.mulVec u = .ok b →
      Vec.norm x ≤ Vec.norm u ∧ (Vec.norm u ≤ Vec.norm x → u = x)

namespace IsExact

variable (hp : p.IsExact a)

include hp

theorem pivot_ne {i : ℕ} (hi : i < a.rows) :
    ∃ t : ℝ, t ≠ 0 ∧ p.triangular.entry i i = real t := by
  obtain ⟨t, ht⟩ := hp.triangular.isReal.entry i i
  refine ⟨t, fun hzero ↦ ?_, ht⟩
  exact hp.regular.pivots.2 i (hi.trans_eq hp.regular.cols_triangular.symm)
    (by rw [ht, hzero]; exact real_beq.mpr rfl)

theorem mulVec_eq_zeros (hx : Vec.InSpace a.cols x)
    (hzero : a.asMatrix a.rows a.cols *ᵥ Vec.tuple a.cols x = 0) :
    a.mulVec x = .ok (Vec.zeros a.rows) :=
  (hp.mulVec_eq_zeros_iff hx).mpr (hp.inNullSpace_iff.mpr ⟨hx, hzero⟩)

theorem toNullSpace_eq_self_iff (hx : Vec.InSpace a.cols x) :
    p.toNullSpace x = .ok x ↔ a.mulVec x = .ok (Vec.zeros a.rows) := by
  obtain ⟨y, hy, hyspace, hytuple⟩ := hp.toNullSpace_eq_ok hx
  rw [hp.mulVec_eq_zeros_iff hx, hp.inNullSpace_iff, and_iff_right hx,
    ← hp.factors.nullPart_eq_self_iff, ← hytuple, hy, Except.ok.injEq]
  constructor
  · rintro rfl
    rfl
  · exact hyspace.ext hx

theorem projected (hx : Vec.InSpace a.cols x) : ∃ y, p.toNullSpace x = .ok y
    ∧ a.mulVec y = .ok (Vec.zeros a.rows) ∧ p.toNullSpace y = .ok y := by
  obtain ⟨y, hy, hyspace, hytuple⟩ := hp.toNullSpace_eq_ok hx
  have hzero := hp.mulVec_eq_zeros hyspace (by rw [hytuple, hp.factors.mulVec_nullPart])
  exact ⟨y, hy, hzero, (hp.toNullSpace_eq_self_iff hyspace).mpr hzero⟩

theorem selfAdjoint (hx : Vec.InSpace a.cols x) (hy : Vec.InSpace a.cols y) : ∃ x' y', ∃ t : ℝ,
    p.toNullSpace x = .ok x' ∧ p.toNullSpace y = .ok y'
      ∧ Vec.dot x' y = .ok (real t) ∧ Vec.dot x y' = .ok (real t) := by
  obtain ⟨x', hx', hxspace, hxtuple⟩ := hp.toNullSpace_eq_ok hx
  obtain ⟨y', hy', hyspace, hytuple⟩ := hp.toNullSpace_eq_ok hy
  refine ⟨x', y', _, hx', hy', hxspace.dot_eq hy, ?_⟩
  rw [hx.dot_eq hyspace, hxtuple, hytuple, dotProduct_nullPart_comm]

theorem splits (hx : Vec.InSpace a.cols x) : ∃ y w u, p.toNullSpace x = .ok y
    ∧ p.coefficients x = .ok w ∧ a.trMulVec w = .ok u ∧ Vec.add y u = .ok x := by
  obtain ⟨y, hy, hyspace, hytuple⟩ := hp.toNullSpace_eq_ok hx
  obtain ⟨w, hw, hwspace, hwtuple⟩ := hp.coefficients_eq_ok hx
  obtain ⟨u, hu, huspace, hutuple⟩ := hp.matrix_inSpace.trMulVec_eq_ok hwspace
  obtain ⟨z, hz, hzspace, hztuple⟩ := hyspace.add_eq_ok huspace
  obtain rfl : z = x := hzspace.ext hx (by
    rw [hztuple, hytuple, hutuple, hp.factors.transpose_mulVec, hwtuple, nullPart,
      sub_add_cancel])
  exact ⟨y, w, u, hy, hw, hu, hz⟩

theorem coefficients_trMulVec {w : Vec Extended} (hw : Vec.InSpace a.rows w) :
    ∃ x, a.trMulVec w = .ok x ∧ p.coefficients x = .ok w := by
  obtain ⟨x, hx, hxspace, hxtuple⟩ := hp.matrix_inSpace.trMulVec_eq_ok hw
  obtain ⟨v, hv, hvspace, hvtuple⟩ := hp.coefficients_eq_ok hxspace
  rw [hxtuple, hp.factors.transpose_mulVec, hp.factors.transpose_mulVec_mulVec] at hvtuple
  obtain rfl := hvspace.ext hw (hp.factors.mulVec_injective hvtuple)
  exact ⟨x, hx, hv⟩

/-- There is only one way to split a vector. -/
theorem split_eq {w u : Vec Extended} (hw : Vec.InSpace a.rows w) (hu : a.trMulVec w = .ok u)
    (hy : Vec.InSpace a.cols y) (hzero : a.mulVec y = .ok (Vec.zeros a.rows))
    (hx : Vec.add y u = .ok x) : p.toNullSpace x = .ok y ∧ p.coefficients x = .ok w := by
  obtain ⟨_, hu', huspace, hutuple⟩ := hp.matrix_inSpace.trMulVec_eq_ok hw
  obtain rfl := Except.ok.inj (hu.symm.trans hu')
  obtain ⟨_, hx', hxspace, hxtuple⟩ := hy.add_eq_ok huspace
  obtain rfl := Except.ok.inj (hx.symm.trans hx')
  have hnull := (hp.inNullSpace_iff.mp ((hp.mulVec_eq_zeros_iff hy).mp hzero)).2
  obtain ⟨y', hy', hyspace', hytuple'⟩ := hp.toNullSpace_eq_ok hxspace
  obtain ⟨w', hw', hwspace', hwtuple'⟩ := hp.coefficients_eq_ok hxspace
  constructor
  · rw [hy', hyspace'.ext hy]
    rw [hytuple', hxtuple, hutuple, nullPart_add, hp.factors.nullPart_transpose_mulVec, add_zero,
      hp.factors.nullPart_eq_self_iff.mpr hnull]
  · rw [hw', hwspace'.ext hw]
    refine hp.factors.mulVec_injective (hwtuple'.trans ?_)
    rw [hxtuple, mulVec_add, hp.factors.mulVec_eq_zero_iff.mp hnull, zero_add, hutuple,
      hp.factors.transpose_mulVec, hp.factors.transpose_mulVec_mulVec]

/-- A solution differs from that of least norm by something that the matrix maps to zero. -/
theorem sumSq_solution (hx : p.InRowSpace x) (hy : Vec.InSpace a.cols y)
    (hsame : a.asMatrix a.rows a.cols *ᵥ Vec.tuple a.cols y =
      a.asMatrix a.rows a.cols *ᵥ Vec.tuple a.cols x) :
    Vec.sumSq x ≤ Vec.sumSq y ∧ (Vec.sumSq y ≤ Vec.sumSq x → y = x) := by
  set v := Vec.tuple a.cols y - Vec.tuple a.cols x with hv
  have hsum := hp.sumSq_eq_add hx hy (v := v) (by rw [hv, mulVec_sub, hsame, sub_self])
    (by rw [hv, add_sub_cancel])
  have hnonneg : 0 ≤ v ⬝ᵥ v := Finset.sum_nonneg fun i _ ↦ mul_self_nonneg (v i)
  refine ⟨by linarith, fun hle ↦ ?_⟩
  have hzero : v ⬝ᵥ v = 0 := by linarith
  exact hy.ext (hp.inRowSpace_iff.mp hx).1 (sub_eq_zero.mp (dotProduct_self_eq_zero.mp hzero))

/-- A combination of the rows is the solution of least norm. -/
theorem minNormSolution_eq {w : Vec Extended} (hw : Vec.InSpace a.rows w)
    (hx : a.trMulVec w = .ok x) (hb : a.mulVec x = .ok b) : p.minNormSolution b = .ok x := by
  obtain ⟨_, hx', hxspace, hxtuple⟩ := hp.matrix_inSpace.trMulVec_eq_ok hw
  obtain rfl := Except.ok.inj (hx.symm.trans hx')
  obtain ⟨_, hb', hbspace, hbtuple⟩ := hp.matrix_inSpace.mulVec_eq_ok hxspace
  obtain rfl := Except.ok.inj (hb.symm.trans hb')
  obtain ⟨y, hy, hrow, hsolves⟩ := hp.minNormSolution_eq_ok hbspace
  have hspace := (hp.inRowSpace_iff.mp hrow).1
  have hrow' : p.InRowSpace x := hp.inRowSpace_iff.mpr ⟨hxspace, _, hxtuple⟩
  have hle := (hp.sumSq_solution hrow hxspace (hbtuple.symm.trans hsolves.symm)).1
  rw [hy, (hp.sumSq_solution hrow' hspace (hsolves.trans hbtuple)).2 hle]

theorem minNormSolution_least (hb : Vec.InSpace a.rows b) : ∃ x, p.minNormSolution b = .ok x
    ∧ a.mulVec x = .ok b ∧ ∀ u, Vec.InSpace a.cols u → a.mulVec u = .ok b →
      Vec.norm x ≤ Vec.norm u ∧ (Vec.norm u ≤ Vec.norm x → u = x) := by
  obtain ⟨x, hx, hrow, hsolves⟩ := hp.minNormSolution_eq_ok hb
  have hspace := (hp.inRowSpace_iff.mp hrow).1
  obtain ⟨z, hz, hzspace, hztuple⟩ := hp.matrix_inSpace.mulVec_eq_ok hspace
  obtain rfl : z = b := hzspace.ext hb (hztuple.trans hsolves)
  refine ⟨x, hx, hz, fun u hu hub ↦ ?_⟩
  obtain ⟨c, hc, -, hctuple⟩ := hp.matrix_inSpace.mulVec_eq_ok hu
  obtain rfl : z = c := Except.ok.inj (hub.symm.trans hc)
  obtain ⟨hle, hunique⟩ := hp.sumSq_solution hrow hu (hctuple.symm.trans hztuple)
  rw [Vec.norm_eq hspace.isReal, Vec.norm_eq hu.isReal, real_le, real_le,
    Real.sqrt_le_sqrt_iff (Vec.sumSq_nonneg u), Real.sqrt_le_sqrt_iff (Vec.sumSq_nonneg x)]
  exact ⟨hle, hunique⟩

theorem laws : p.Laws a where
  pivots := by
    refine ⟨fun i hi ↦ hp.pivot_ne hi, fun b hb ↦ ?_⟩
    obtain ⟨u, hu, -⟩ := hp.solveUpper_eq_ok hb
    obtain ⟨v, hv, -⟩ := (DenseMatrix.ensures_solveTransposed hp.regular.pivots
      (hb.length_eq.trans hp.regular.cols_triangular.symm)).exists_ok
    exact ⟨⟨u, hu⟩, v, hv⟩
  projected _ hx := hp.projected hx
  fixed_iff _ hx := hp.toNullSpace_eq_self_iff hx
  selfAdjoint _ _ hx hy := hp.selfAdjoint hx hy
  splits _ hx := hp.splits hx
  coefficients _ hw := hp.coefficients_trMulVec hw
  minNormSolution _ hb := hp.minNormSolution_least hb

theorem rank_eq : (a.asMatrix a.rows a.cols).rank = a.rows := by
  rw [Matrix.rank, hp.range_eq_top, finrank_top, Module.finrank_fin_fun]

end IsExact

/-! ## Rank deficiency -/

theorem exists_ofMatrixBy_of_rows_eq_zero (h : a.rows = 0) :
    ∃ p, ofMatrixBy factorize a = .ok p := by
  rw [ofMatrixBy, if_neg (by omega), if_pos h]
  exact ⟨_, rfl⟩

/-- Whatever the factorization, a rank deficiency is caught, and the laws hold if there is none. -/
theorem ofMatrixBy_lawful (hfactorize : DenseMatrix.Factorizes factorize) (ha : a.IsReal) :
    ((a.asMatrix a.rows a.cols).rank < a.rows → ofMatrixBy factorize a = .error .rankDeficient)
      ∧ (a.rows = 0 → ∃ p, ofMatrixBy factorize a = .ok p)
      ∧ ∀ p, ofMatrixBy factorize a = .ok p → p.Laws a := by
  have hexact : ∀ p, ofMatrixBy factorize a = .ok p → p.IsExact a := fun p h ↦
    BelongsTo.isExact ⟨factorize, hfactorize, h⟩ ha
  refine ⟨fun hrank ↦ ?_, exists_ofMatrixBy_of_rows_eq_zero, fun p h ↦ (hexact p h).laws⟩
  rcases h : ofMatrixBy factorize a with _ | p
  · rfl
  · exact absurd (hexact p h).rank_eq hrank.ne

/-- **The projections obey their laws.** A matrix of real numbers without full row rank is an error,
whatever its shape, and a matrix without rows is none. If there is no error, then all operations are
computed without a zero pivot, and they obey the laws. All of this remains true if any other
function that factorizes exactly takes the place of the reflections. -/
theorem ofMatrix_lawful (ha : a.IsReal) :
    (((a.asMatrix a.rows a.cols).rank < a.rows → ofMatrix a = .error .rankDeficient)
        ∧ (a.rows = 0 → ∃ p, ofMatrix a = .ok p)
        ∧ ∀ p, ofMatrix a = .ok p → p.Laws a)
      ∧ ∀ factorize, DenseMatrix.Factorizes factorize →
        ((a.asMatrix a.rows a.cols).rank < a.rows →
          ofMatrixBy factorize a = .error .rankDeficient)
        ∧ (a.rows = 0 → ∃ p, ofMatrixBy factorize a = .ok p)
        ∧ ∀ p, ofMatrixBy factorize a = .ok p → p.Laws a := by
  exact ⟨ofMatrixBy_lawful DenseMatrix.factorizes_qr ha,
    fun factorize hfactorize ↦ ofMatrixBy_lawful hfactorize ha⟩

/-- A single row has projections. Of two rows, one of which is a multiple of the other, there are
none, though they are as many as the columns. -/
theorem rows_lawful :
    (∃ p, ofMatrix (DenseMatrix.ofRows 2 [[real 3, real 4]]) = .ok p
        ∧ p.Laws (DenseMatrix.ofRows 2 [[real 3, real 4]]))
      ∧ ofMatrix (DenseMatrix.ofRows 2 [[real 1, real 2], [real 2, real 4]]) =
        .error .rankDeficient := by
  constructor
  · have hreal : (DenseMatrix.ofRows 2 [[real 3, real 4]]).IsReal :=
      DenseMatrix.isReal_ofRows (by simp [Vec.isReal_cons])
    obtain ⟨p, hp, -⟩ := ofMatrix_of_row (a := DenseMatrix.ofRows 2 [[real 3, real 4]])
      (r := [3, 4]) rfl rfl (by norm_num) (show ((2 : ℕ) : ℝ) < 4503599627370496 by norm_num)
    exact ⟨p, hp, (ofMatrix_lawful hreal).1.2.2 p hp⟩
  · have hreal : (DenseMatrix.ofRows 2 [[real 1, real 2], [real 2, real 4]]).IsReal :=
      DenseMatrix.isReal_ofRows (by simp [Vec.isReal_cons])
    refine (ofMatrix_lawful hreal).1.1 (lt_of_le_of_lt ?_ one_lt_two)
    have hproduct : (DenseMatrix.ofRows 2 [[real 1, real 2], [real 2, real 4]]).asMatrix 2 2 =
        vecMulVec ![1, 2] ![1, 2] := by
      ext i j
      fin_cases i <;> fin_cases j
      · exact (one_mul (1 : ℝ)).symm
      · exact (one_mul (2 : ℝ)).symm
      · exact (mul_one (2 : ℝ)).symm
      · change (4 : ℝ) = 2 * 2
        norm_num
    change ((DenseMatrix.ofRows 2 [[real 1, real 2], [real 2, real 4]]).asMatrix 2 2).rank ≤ 1
    rw [hproduct]
    exact rank_vecMulVec_le _ _

end Projector

end LogBarrier
