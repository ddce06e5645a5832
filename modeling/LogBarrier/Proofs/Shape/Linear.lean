import LogBarrier.Proofs.Exact.Coordinates
import LogBarrier.TrustRegion.Projector

/-!
# Lengths of vectors and matrices

Operations on vectors and matrices of matching lengths do not fault, whatever their entries are, and
the length of the result is known. So a computation whose lengths are known to agree can end only in
the faults that have nothing to do with lengths.

## Pivots

A triangular system is solved only for a factor that was found not to be deficient. Nothing is known
of the test over scalars without laws, so a zero pivot has to be allowed there. Over the extended
real numbers the test compares every entry of the diagonal with a number that is never negative and
never missing, so it is passed by an entry that is not a number, but not by zero.
-/

namespace LogBarrier

variable {α : Type} [Scalar α] {allowed : Fault → Prop}

namespace Vec

variable {x y : Vec α} {n : ℕ}

omit [Scalar α] in
theorem ensures_combine (f : α → α → α) (hx : x.length = n) (hy : y.length = n) :
    Ensures allowed (fun z ↦ z.length = n) (combine f x y) := by
  rw [combine, if_pos (hx.trans hy.symm)]
  refine Ensures.ok ?_
  rw [List.length_zipWith, hx, hy, Nat.min_self]

theorem ensures_add (hx : x.length = n) (hy : y.length = n) :
    Ensures allowed (fun z ↦ z.length = n) (add x y) := ensures_combine _ hx hy

theorem ensures_sub (hx : x.length = n) (hy : y.length = n) :
    Ensures allowed (fun z ↦ z.length = n) (sub x y) := ensures_combine _ hx hy

theorem ensures_mul (hx : x.length = n) (hy : y.length = n) :
    Ensures allowed (fun z ↦ z.length = n) (mul x y) := ensures_combine _ hx hy

theorem ensures_dot (hx : x.length = n) (hy : y.length = n) :
    Ensures allowed (fun _ ↦ True) (dot x y) := by
  rw [dot, if_pos (hx.trans hy.symm)]
  exact Ensures.ok trivial

omit [Scalar α] in
theorem ensures_entry {i : ℕ} (h : i < x.length) : Ensures allowed (fun _ ↦ True) (entry x i) := by
  rw [entry, List.getElem?_eq_getElem h]
  exact Ensures.ok trivial

omit [Scalar α] in
theorem ensures_slice {offset size : ℕ} (h : offset + size ≤ x.length) :
    Ensures allowed (fun z ↦ z.length = size) (slice x offset size) := by
  rw [slice, if_pos h]
  refine Ensures.ok ?_
  rw [List.length_take, List.length_drop]
  omega

omit [Scalar α] in
theorem takeExactly_length (x : Vec α) : takeExactly x.length x = .ok x := by
  rw [takeExactly, if_pos le_rfl, List.take_length]

omit [Scalar α] in
theorem ensures_takeExactly (h : n ≤ x.length) :
    Ensures allowed (fun z ↦ z.length = n) (takeExactly n x) := by
  rw [takeExactly, if_pos h]
  exact Ensures.ok (List.length_take_of_le h)

theorem ensures_addAt {offset : ℕ} (h : offset + x.length ≤ y.length) :
    Ensures allowed (fun z ↦ z.length = y.length) (addAt offset x y) := by
  fun_induction addAt offset x y with
  | case1 offset y => exact Ensures.ok rfl
  | case2 a x b y ih =>
    rw [List.length_cons, List.length_cons] at h
    exact (ih (by omega)).bind fun z hz ↦
      Ensures.pure (by rw [List.length_cons, List.length_cons, hz])
  | case3 offset x b y hne ih =>
    rw [List.length_cons] at h
    exact (ih (by omega)).bind fun z hz ↦
      Ensures.pure (by rw [List.length_cons, List.length_cons, hz])
  | case4 offset a x =>
    rw [List.length_cons, List.length_nil] at h
    omega

end Vec

namespace DenseMatrix

variable {m r : DenseMatrix α} {x b : Vec α}

theorem length_foldl_combination {n : ℕ} {terms : List (Vec α × α)}
    (h : ∀ t ∈ terms, t.1.length = n) (hx : x.length = n) :
    (terms.foldl (fun acc (c, a) ↦ List.zipWith (fun s b ↦ s + b * a) acc c) x).length = n := by
  induction terms generalizing x with
  | nil => exact hx
  | cons t terms ih =>
    rw [List.forall_mem_cons] at h
    refine ih h.2 ?_
    rw [List.length_zipWith, hx, h.1, Nat.min_self]

theorem length_combination {rows : ℕ} {columns : List (Vec α)}
    (h : ∀ c ∈ columns, c.length = rows) (x : Vec α) :
    (combination rows columns x).length = rows := by
  obtain _ | ⟨c, columns⟩ := columns
  · exact Vec.length_zeros rows
  obtain _ | ⟨a, x⟩ := x
  · exact Vec.length_zeros rows
  rw [List.forall_mem_cons] at h
  refine length_foldl_combination (fun t ht ↦ h.2 t.1 (List.of_mem_zip ht).1) ?_
  rw [Vec.length_scale, h.1]

theorem ensures_mulVec (h : x.length = m.cols) :
    Ensures allowed (fun z ↦ z.length = m.rows) (m.mulVec x) := by
  rw [mulVec, if_pos h]
  exact Ensures.ok (length_combination m.length_of_mem_columns x)

theorem ensures_trMulVec (h : x.length = m.rows) :
    Ensures allowed (fun z ↦ z.length = m.cols) (m.trMulVec x) := by
  rw [trMulVec, if_pos h]
  exact Ensures.ok (by rw [List.length_map, m.length_columns])

/-! ## Triangular systems -/

/-- No entry of the diagonal is zero, unless the fault of a zero pivot is allowed. -/
def HasPivots (allowed : Fault → Prop) (r : DenseMatrix α) : Prop :=
  r.rows = r.cols ∧ ∀ i < r.cols, (r.entry i i == 0) = true → allowed .zeroPivot

theorem ensures_dividePivot {pivot : α} (h : (pivot == 0) = true → allowed .zeroPivot) (a : α) :
    Ensures allowed (fun _ ↦ True) (dividePivot a pivot) := by
  rw [dividePivot]
  split
  next hzero => exact Ensures.error (h hzero)
  next => exact Ensures.ok trivial

theorem ensures_solveUpperFrom (h : r.HasPivots allowed) (b : Vec α) {i count : ℕ}
    (hi : i + count ≤ r.cols) :
    Ensures allowed (fun y ↦ y.length = count) (solveUpperFrom r b i count) := by
  induction count generalizing i with
  | zero => exact Ensures.ok rfl
  | succ count ih =>
    rw [solveUpperFrom]
    exact (ih (by omega)).bind fun y hy ↦ (ensures_dividePivot (h.2 i (by omega)) _).bind
      fun u _ ↦ Ensures.pure (by rw [List.length_cons, hy])

theorem ensures_solveUpper (h : r.HasPivots allowed) (hb : b.length = r.cols) :
    Ensures allowed (fun y ↦ y.length = r.cols) (r.solveUpper b) := by
  rw [solveUpper, if_pos hb]
  exact ensures_solveUpperFrom h b (Nat.zero_add _).le

/-- The columns that are left have their pivots below the unknowns that are found. -/
theorem ensures_solveLowerFrom {solved : Vec α} {columns : List (Vec α)}
    (h : ∀ (k : ℕ) (c : Vec α), columns[k]? = some c →
      (c.getD (solved.length + k) 0 == 0) = true → allowed .zeroPivot)
    (hb : b.length = columns.length) :
    Ensures allowed (fun y ↦ y.length = solved.length + columns.length)
      (solveLowerFrom solved columns b) := by
  induction columns generalizing solved b with
  | nil =>
    rw [solveLowerFrom.eq_def]
    exact Ensures.ok (by rw [List.length_nil, Nat.add_zero])
  | cons c columns ih =>
    obtain _ | ⟨a, b⟩ := b
    · cases hb
    rw [solveLowerFrom]
    refine (ensures_dividePivot (h 0 c rfl) _).bind fun u _ ↦
      (ih (fun k c' hc' ↦ ?_) (Nat.succ.inj hb)).mono fun y hy ↦ ?_
    · rw [List.length_append, List.length_singleton, Nat.add_assoc, Nat.add_comm 1]
      exact h (k + 1) c' hc'
    · rw [hy, List.length_append, List.length_singleton, List.length_cons, Nat.add_assoc,
        Nat.add_comm 1]

theorem ensures_solveTransposed (h : r.HasPivots allowed) (hb : b.length = r.cols) :
    Ensures allowed (fun y ↦ y.length = r.cols) (r.solveTransposed b) := by
  rw [solveTransposed, if_pos hb]
  refine (ensures_solveLowerFrom (fun k c hc ↦ ?_) (hb.trans r.length_columns.symm)).mono
    fun y hy ↦ ?_
  · have hk : k < r.cols := r.length_columns ▸ (List.getElem?_eq_some_iff.mp hc).1
    have hcolumn : r.columns.getD k [] = c := by rw [List.getD_eq_getElem?_getD, hc]; rfl
    have hpivot := h.2 k hk
    rw [entry, hcolumn] at hpivot
    rwa [List.length_nil, Nat.zero_add]
  · rw [hy, List.length_nil, Nat.zero_add, r.length_columns]

end DenseMatrix

/-! ## The factorization -/

namespace OrthogonalFactors

theorem length_ofColumns (height : ℕ) {count : ℕ} {columns : List (Vec α)}
    (h : columns.length = count) :
    (ofColumns height count columns).orthogonal.length = count
      ∧ (ofColumns height count columns).triangular.length = count := by
  induction count generalizing height columns with
  | zero => exact ⟨rfl, rfl⟩
  | succ count ih =>
    obtain _ | ⟨v, columns⟩ := columns
    · cases h
    have hinner : ((columns.map (Reflection.clearing v).apply).map List.tail).length = count := by
      rw [List.length_map, List.length_map]
      exact Nat.succ.inj h
    obtain ⟨hq, hr⟩ := ih (height - 1) hinner
    rw [ofColumns]
    constructor
    · rw [List.length_map, List.length_cons, List.length_map, hq]
    · rw [List.length_cons, List.length_zipWith, hr, List.length_map]
      rw [List.length_map, List.length_map] at hinner
      rw [hinner, Nat.min_self]

end OrthogonalFactors

namespace DenseMatrix

theorem shape_qr (m : DenseMatrix α) :
    (m.qr.1.rows = m.rows ∧ m.qr.1.cols = m.cols)
      ∧ m.qr.2.rows = m.cols ∧ m.qr.2.cols = m.cols := by
  obtain ⟨hq, hr⟩ := OrthogonalFactors.length_ofColumns m.rows m.length_columns
  exact ⟨⟨rfl, hq⟩, rfl, hr⟩

end DenseMatrix

namespace Projector

variable {p : Projector α} {x b : Vec α} {m n : ℕ}

/-- The factors have the shapes for a matrix of `m` rows and `n` columns, and triangular systems can
be solved, unless the fault of a zero pivot is allowed. -/
structure Regular (allowed : Fault → Prop) (p : Projector α) (m n : ℕ) : Prop where
  variableCount : p.variableCount = n
  constraintCount : p.constraintCount = m
  cols_triangular : p.triangular.cols = m
  pivots : p.triangular.HasPivots allowed

theorem ensures_toNullSpace (h : p.Regular allowed m n) (hx : x.length = n) :
    Ensures allowed (fun z ↦ z.length = n) (p.toNullSpace x) :=
  (DenseMatrix.ensures_trMulVec (hx.trans h.variableCount.symm)).bind fun _ hy ↦
    (DenseMatrix.ensures_mulVec hy).bind fun _ hz ↦
      Vec.ensures_sub hx (hz.trans h.variableCount)

theorem ensures_coefficients (h : p.Regular allowed m n) (hx : x.length = n) :
    Ensures allowed (fun y ↦ y.length = m) (p.coefficients x) := by
  refine (DenseMatrix.ensures_trMulVec (hx.trans h.variableCount.symm)).bind fun y hy ↦ ?_
  rw [← h.cols_triangular]
  exact DenseMatrix.ensures_solveUpper h.pivots
    (hy.trans (h.constraintCount.trans h.cols_triangular.symm))

theorem ensures_minNormSolution (h : p.Regular allowed m n) (hb : b.length = m) :
    Ensures allowed (fun x ↦ x.length = n) (p.minNormSolution b) := by
  refine (DenseMatrix.ensures_solveTransposed h.pivots (hb.trans h.cols_triangular.symm)).bind
    fun y hy ↦ ?_
  rw [← h.variableCount]
  exact DenseMatrix.ensures_mulVec (hy.trans (h.cols_triangular.trans h.constraintCount.symm))

/-! ### Pivots -/

/-- The test for deficiency finds every diagonal deficient that has a zero. -/
def DetectsZero (α : Type) [Scalar α] : Prop :=
  ∀ (diagonal : Vec α) (n : ℕ), 0 < n → isDeficient diagonal n = false →
    ∀ d ∈ diagonal, (d == 0) = false

/-- A square factor whose diagonal is not deficient has no zero pivot. -/
theorem hasPivots_of_isDeficient_eq_false {r : DenseMatrix α}
    (hzero : DetectsZero α ∨ allowed .zeroPivot) (hsquare : r.rows = r.cols) (hn : 0 < n)
    (h : isDeficient r.diagonalEntries n = false) : r.HasPivots allowed := by
  refine ⟨hsquare, fun i hi hpivot ↦ ?_⟩
  refine hzero.resolve_left fun hdetects ↦
    ne_true_of_eq_false (hdetects _ _ hn h _ ?_) hpivot
  refine List.mem_map.mpr ⟨i, List.mem_range.mpr ?_, rfl⟩
  rwa [hsquare, Nat.min_self]

theorem ofMatrixBy_eq_ok {factorize : DenseMatrix α → DenseMatrix α × DenseMatrix α}
    {a : DenseMatrix α} (h : ofMatrixBy factorize a = .ok p) :
    a.rows ≤ a.cols
      ∧ (a.rows = 0 ∧ p = ⟨DenseMatrix.zeros a.cols 0, DenseMatrix.zeros 0 0⟩
        ∨ a.rows ≠ 0 ∧ p = ⟨(factorize a.transpose).1, (factorize a.transpose).2⟩
          ∧ isDeficient p.triangular.diagonalEntries a.cols = false) := by
  rw [ofMatrixBy] at h
  split at h
  · cases h
  next hwide =>
    refine ⟨not_lt.mp hwide, ?_⟩
    split at h
    next hrows => exact .inl ⟨hrows, (Except.ok.inj h).symm⟩
    next hrows =>
      dsimp only at h
      split at h
      · cases h
      next hdeficient =>
        cases h
        exact .inr ⟨hrows, rfl, eq_false_of_ne_true hdeficient⟩

/-- The factors of a matrix of full row rank have its shape, if the function finds factors of the
right shape. -/
theorem regular_of_ofMatrixBy {factorize : DenseMatrix α → DenseMatrix α × DenseMatrix α}
    {a : DenseMatrix α} (hzero : DetectsZero α ∨ allowed .zeroPivot)
    (hshape : ((factorize a.transpose).1.rows = a.cols ∧ (factorize a.transpose).1.cols = a.rows)
      ∧ (factorize a.transpose).2.rows = a.rows ∧ (factorize a.transpose).2.cols = a.rows)
    (h : ofMatrixBy factorize a = .ok p) : p.Regular allowed a.rows a.cols := by
  obtain ⟨hwide, ⟨hrows, rfl⟩ | ⟨hrows, rfl, hdeficient⟩⟩ := ofMatrixBy_eq_ok h
  · rw [hrows]
    exact ⟨rfl, rfl, rfl, rfl, nofun⟩
  · obtain ⟨⟨hqrows, hqcols⟩, hrrows, hrcols⟩ := hshape
    exact ⟨hqrows, hqcols, hrcols, hasPivots_of_isDeficient_eq_false hzero
      (hrrows.trans hrcols.symm) (by omega) hdeficient⟩

theorem regular_of_ofMatrix {a : DenseMatrix α} (hzero : DetectsZero α ∨ allowed .zeroPivot)
    (h : ofMatrix a = .ok p) : p.Regular allowed a.rows a.cols :=
  regular_of_ofMatrixBy hzero a.transpose.shape_qr h

end Projector

/-! ### Pivots over the extended real numbers -/

section Pivots

open Extended

theorem Vec.zero_le_maxNorm (x : Vec Extended) : 0 ≤ Vec.maxNorm x := by
  suffices h : ∀ acc : Extended, 0 ≤ acc →
      0 ≤ x.foldl (fun acc a ↦ Scalar.maxNum acc (Scalar.abs a)) acc from h 0 (real_le.mpr le_rfl)
  induction x with
  | nil => exact fun acc hacc ↦ hacc
  | cons a x ih => exact fun acc hacc ↦ ih _ (le_maxNum_of_le hacc)

theorem Projector.zero_le_tolerance (diagonal : Vec Extended) {n : ℕ} (hn : 0 < n) :
    0 ≤ Vec.maxNorm diagonal * (Scalar.epsilon * (n : Extended)) := by
  obtain ⟨ε, hε, hpos⟩ : ∃ ε : ℝ, Scalar.epsilon * (n : Extended) = real ε ∧ 0 < ε := by
    refine ⟨1 / 4503599627370496.0 * n, ?_, by positivity⟩
    rw [Scalar.epsilon, one_eq, ofScientific_eq, real_div (by norm_num), natCast_eq, real_mul]
  rw [hε]
  rcases real_le_iff.mp (Vec.zero_le_maxNorm diagonal) with h | ⟨y, hy, h⟩
  · rw [h, posInf_mul_real hpos]
    exact real_le_posInf 0
  · rw [h, real_mul]
    exact real_le.mpr (mul_nonneg hy hpos.le)

/-- A zero on the diagonal is never above the number with which it is compared. -/
theorem Projector.detectsZero : DetectsZero Extended := by
  intro diagonal n hn h d hd
  rw [isDeficient, Bool.or_eq_false_iff] at h
  rw [← Bool.not_eq_true]
  intro hzero
  refine ne_true_of_eq_false h.2 (List.any_eq_true.mpr ⟨d, hd, decide_eq_true ?_⟩)
  obtain rfl : d = 0 := by
    cases d with
    | real r => exact congrArg real (real_beq.mp hzero)
    | posInf => cases hzero
    | negInf => cases hzero
    | nan => cases hzero
  rw [zero_eq, abs_real, abs_zero]
  exact Projector.zero_le_tolerance diagonal hn

end Pivots

end LogBarrier
