import LogBarrier.Proofs.Exact.DenseMatrix
import Mathlib.Algebra.BigOperators.Group.Finset.Basic
import Mathlib.Algebra.Order.BigOperators.Group.Finset
import Mathlib.Data.List.GetD

/-!
# Coordinates

A vector of real numbers is given by its length and its coordinates, and an operation on vectors is
an equation between coordinates. The coordinates of a vector are zero beyond its length, and so are
those of a matrix outside of its shape.
-/

namespace LogBarrier

open Extended

namespace Vec

/-- The coordinate with the given index, zero beyond the length of the vector. -/
noncomputable def coord (x : Vec Extended) (i : ℕ) : ℝ := (x.getD i 0).toReal

noncomputable def ofCoords (n : ℕ) (f : ℕ → ℝ) : Vec Extended :=
  (List.range n).map fun i ↦ real (f i)

variable {x y : Vec Extended} {n k i : ℕ} {f g : ℕ → ℝ}

@[simp] theorem length_ofCoords (n : ℕ) (f : ℕ → ℝ) : (ofCoords n f).length = n := by
  rw [ofCoords, List.length_map, List.length_range]

theorem isReal_ofCoords (n : ℕ) (f : ℕ → ℝ) : IsReal (ofCoords n f) := by
  intro a ha
  obtain ⟨i, -, rfl⟩ := List.mem_map.mp ha
  exact isReal_real _

theorem getElem?_ofCoords (h : i < n) : (ofCoords n f)[i]? = some (real (f i)) := by
  rw [ofCoords, List.getElem?_map, List.getElem?_range h]
  rfl

theorem coord_ofCoords (h : i < n) : coord (ofCoords n f) i = f i := by
  rw [coord, List.getD_eq_getElem?_getD, getElem?_ofCoords h]
  rfl

theorem coord_of_getElem? {a : Extended} (h : x[i]? = some a) : coord x i = a.toReal := by
  rw [coord, List.getD_eq_getElem?_getD, h]
  rfl

theorem IsReal.headD_eq (hx : IsReal x) : x.headD 0 = real (coord x 0) := by
  cases x with
  | nil => rfl
  | cons a x => exact (isReal_cons.mp hx).1.eq

theorem ofCoords_congr (h : ∀ i < n, f i = g i) : ofCoords n f = ofCoords n g :=
  List.map_congr_left fun i hi ↦ by rw [h i (List.mem_range.mp hi)]

theorem eq_ofCoords (hx : IsReal x) (hlength : x.length = n) (h : ∀ i < n, coord x i = f i) :
    x = ofCoords n f := by
  refine List.ext_getElem? fun i ↦ ?_
  rcases lt_or_ge i n with hi | hi
  · obtain ⟨a, ha⟩ : ∃ a, x[i]? = some a := ⟨_, List.getElem?_eq_getElem (hlength ▸ hi)⟩
    rw [getElem?_ofCoords hi, ha, (hx a (List.mem_of_getElem? ha)).eq, ← h i hi,
      coord_of_getElem? ha]
  · rw [List.getElem?_eq_none (hlength ▸ hi), List.getElem?_eq_none (by rwa [length_ofCoords])]

theorem ofCoords_coord (hx : IsReal x) : ofCoords x.length x.coord = x :=
  (eq_ofCoords hx rfl fun _ _ ↦ rfl).symm

theorem ofCoords_coord_of_length {n : ℕ} (hx : IsReal x) (h : x.length = n) :
    ofCoords n x.coord = x := by
  rw [← h, ofCoords_coord hx]

theorem ofCoords_succ (n : ℕ) (f : ℕ → ℝ) :
    ofCoords (n + 1) f = real (f 0) :: ofCoords n fun i ↦ f (i + 1) := by
  rw [ofCoords, List.range_succ_eq_map, List.map_cons, List.map_map]
  rfl

theorem set_ofCoords (n k : ℕ) (f : ℕ → ℝ) (a : ℝ) :
    (ofCoords n f).set k (real a) = ofCoords n fun i ↦ if k = i then a else f i := by
  refine List.ext_getElem? fun i ↦ ?_
  rcases lt_or_ge i n with hi | hi
  · rw [List.getElem?_set, getElem?_ofCoords hi, length_ofCoords, getElem?_ofCoords hi]
    split_ifs with hk hlt
    · rfl
    · exact absurd (hk ▸ hi) hlt
    · rfl
  · rw [List.getElem?_eq_none (by rwa [List.length_set, length_ofCoords]),
      List.getElem?_eq_none (by rwa [length_ofCoords])]

theorem forall_coord_iff {P : ℝ → Prop} :
    (∀ i < x.length, P (coord x i)) ↔ ∀ a ∈ x, P a.toReal := by
  constructor
  · intro h a ha
    obtain ⟨i, hi⟩ := List.mem_iff_getElem?.mp ha
    obtain ⟨hlt, -⟩ := List.getElem?_eq_some_iff.mp hi
    exact coord_of_getElem? hi ▸ h i hlt
  · intro h i hi
    rw [coord_of_getElem? (List.getElem?_eq_getElem hi)]
    exact h _ (List.getElem_mem hi)

/-! ## Parts of a vector -/

theorem coord_take (h : i < k) : coord (x.take k) i = coord x i := by
  rw [coord, coord, List.getD_eq_getElem?_getD, List.getD_eq_getElem?_getD,
    List.getElem?_take_of_lt h]

theorem take_eq_ofCoords (hx : IsReal x) (h : k ≤ x.length) : x.take k = ofCoords k x.coord :=
  eq_ofCoords (hx.take k) (by rw [List.length_take, Nat.min_eq_left h]) fun _ hi ↦ coord_take hi

theorem coord_drop (x : Vec Extended) (k i : ℕ) : coord (x.drop k) i = coord x (k + i) := by
  rw [coord, coord, List.getD_eq_getElem?_getD, List.getD_eq_getElem?_getD, List.getElem?_drop]

theorem drop_eq_ofCoords (hx : IsReal x) (h : x.length = k + n) :
    x.drop k = ofCoords n fun i ↦ coord x (k + i) :=
  eq_ofCoords (hx.drop k) (by rw [List.length_drop, h, Nat.add_sub_cancel_left])
    fun i _ ↦ coord_drop x k i

theorem coord_append_left (h : i < x.length) : coord (x ++ y) i = coord x i := by
  rw [coord, coord, List.getD_append _ _ _ _ h]

theorem coord_append_right (h : x.length ≤ i) : coord (x ++ y) i = coord y (i - x.length) := by
  rw [coord, coord, List.getD_append_right _ _ _ _ h]

theorem ofCoords_add (n m : ℕ) (f : ℕ → ℝ) :
    ofCoords (n + m) f = ofCoords n f ++ ofCoords m fun i ↦ f (n + i) := by
  rw [ofCoords, List.range_add, List.map_append, List.map_map]
  rfl

theorem slice_ofCoords {offset size : ℕ} (h : offset + size ≤ n) :
    slice (ofCoords n f) offset size = .ok (ofCoords size fun i ↦ f (offset + i)) := by
  rw [slice, if_pos (by rwa [length_ofCoords])]
  refine congrArg _ (eq_ofCoords (((isReal_ofCoords n f).drop _).take _) ?_ fun i hi ↦ ?_)
  · rw [List.length_take, List.length_drop, length_ofCoords]
    omega
  · rw [coord_take hi, coord_drop, coord_ofCoords (by omega)]

/-! ## Arithmetic -/

theorem coord_zeros (n i : ℕ) : coord (zeros n) i = 0 := by
  rw [coord, List.getD_eq_getElem?_getD, zeros, List.getElem?_replicate]
  split <;> rfl

theorem zeros_eq_ofCoords (n : ℕ) : zeros n = ofCoords n fun _ ↦ 0 :=
  eq_ofCoords (IsReal.zeros n) (length_zeros n) fun i _ ↦ coord_zeros n i

/-- An operation need not answer all real numbers with a real number, only these coordinates. -/
theorem zipWith_ofCoords_of_lt {op : Extended → Extended → Extended} {φ : ℕ → ℝ}
    (h : ∀ i < n, op (real (f i)) (real (g i)) = real (φ i)) :
    List.zipWith op (ofCoords n f) (ofCoords n g) = ofCoords n φ := by
  rw [ofCoords, ofCoords, List.zipWith_map, List.zipWith_self]
  exact List.map_congr_left fun i hi ↦ h i (List.mem_range.mp hi)

theorem zipWith_ofCoords {op : Extended → Extended → Extended} (φ : ℝ → ℝ → ℝ)
    (h : ∀ a b, op (real a) (real b) = real (φ a b)) (n : ℕ) (f g : ℕ → ℝ) :
    List.zipWith op (ofCoords n f) (ofCoords n g) = ofCoords n fun i ↦ φ (f i) (g i) :=
  zipWith_ofCoords_of_lt fun i _ ↦ h (f i) (g i)

theorem coord_zipWith_add (hx : IsReal x) (hy : IsReal y) (hlength : x.length = y.length)
    (hi : i < x.length) : coord (List.zipWith (· + ·) x y) i = coord x i + coord y i := by
  have h : List.zipWith (· + ·) (ofCoords x.length x.coord) (ofCoords x.length y.coord) =
      ofCoords x.length fun i ↦ x.coord i + y.coord i :=
    zipWith_ofCoords (· + ·) (fun _ _ ↦ rfl) x.length x.coord y.coord
  rw [ofCoords_coord hx, ofCoords_coord_of_length hy hlength.symm] at h
  rw [h, coord_ofCoords hi]

theorem add_ofCoords (n : ℕ) (f g : ℕ → ℝ) :
    add (ofCoords n f) (ofCoords n g) = .ok (ofCoords n fun i ↦ f i + g i) := by
  rw [add, combine_eq_ok_iff, length_ofCoords, length_ofCoords]
  exact ⟨rfl, (zipWith_ofCoords (· + ·) (fun _ _ ↦ rfl) n f g).symm⟩

theorem sub_ofCoords (n : ℕ) (f g : ℕ → ℝ) :
    sub (ofCoords n f) (ofCoords n g) = .ok (ofCoords n fun i ↦ f i - g i) := by
  rw [sub, combine_eq_ok_iff, length_ofCoords, length_ofCoords]
  exact ⟨rfl, (zipWith_ofCoords (· - ·) (fun _ _ ↦ rfl) n f g).symm⟩

theorem mul_ofCoords (n : ℕ) (f g : ℕ → ℝ) :
    mul (ofCoords n f) (ofCoords n g) = .ok (ofCoords n fun i ↦ f i * g i) := by
  rw [mul, combine_eq_ok_iff, length_ofCoords, length_ofCoords]
  exact ⟨rfl, (zipWith_ofCoords (· * ·) (fun _ _ ↦ rfl) n f g).symm⟩

theorem map_ofCoords {op : Extended → Extended} (φ : ℝ → ℝ) (h : ∀ a, op (real a) = real (φ a))
    (n : ℕ) (f : ℕ → ℝ) : (ofCoords n f).map op = ofCoords n fun i ↦ φ (f i) := by
  rw [ofCoords, List.map_map]
  exact List.map_congr_left fun i _ ↦ h (f i)

theorem scale_ofCoords (n : ℕ) (f : ℕ → ℝ) (a : ℝ) :
    scale (ofCoords n f) (real a) = ofCoords n fun i ↦ f i * a :=
  map_ofCoords (· * a) (fun _ ↦ rfl) n f

theorem neg_ofCoords (n : ℕ) (f : ℕ → ℝ) :
    neg (ofCoords n f) = ofCoords n fun i ↦ -f i :=
  map_ofCoords (fun r ↦ -r) (fun _ ↦ rfl) n f

theorem sum_map_range (n : ℕ) (f : ℕ → ℝ) :
    ((List.range n).map f).sum = ∑ i ∈ Finset.range n, f i := by
  rw [Finset.sum, Finset.range_val, Multiset.range, Multiset.map_coe, Multiset.sum_coe]

theorem dotSum_ofCoords (n : ℕ) (f g : ℕ → ℝ) :
    dotSum (ofCoords n f) (ofCoords n g) = real (∑ i ∈ Finset.range n, f i * g i) := by
  have hreal : ∀ h : ℕ → ℝ, ofCoords n h = ((List.range n).map h).map real :=
    fun h ↦ by rw [List.map_map]; rfl
  rw [hreal, hreal, dotSum_map_real, List.zipWith_map, List.zipWith_self, sum_map_range]

theorem coord_cons_succ (a : Extended) (x : Vec Extended) (i : ℕ) :
    coord (a :: x) (i + 1) = coord x i := rfl

/-- Adding to the entries from an offset on changes these entries only. -/
theorem addAt_eq_ok (hx : IsReal x) (hy : IsReal y) (offset : ℕ)
    (h : offset + x.length ≤ y.length) :
    ∃ z, addAt offset x y = .ok z ∧ z.length = y.length ∧ ∀ i, coord z i =
      coord y i + if offset ≤ i ∧ i < offset + x.length then coord x (i - offset) else 0 := by
  fun_induction addAt offset x y with
  | case1 offset y =>
    refine ⟨y, rfl, rfl, fun i ↦ ?_⟩
    rw [if_neg (by rw [List.length_nil]; omega), add_zero]
  | case2 a x b y ih =>
    rw [isReal_cons] at hx hy
    obtain ⟨z, hz, hlength, hcoord⟩ := ih hx.2 hy.2 (by simp only [List.length_cons] at h; omega)
    refine ⟨(b + a) :: z, by rw [hz]; rfl, by rw [List.length_cons, hlength, List.length_cons], ?_⟩
    rintro (_ | i)
    · obtain ⟨r, rfl⟩ := hx.1
      obtain ⟨t, rfl⟩ := hy.1
      rw [if_pos ⟨le_rfl, Nat.succ_pos _⟩]
      rfl
    · rw [coord_cons_succ, coord_cons_succ, hcoord, List.length_cons]
      simp only [zero_le, true_and, Nat.sub_zero, zero_add, Nat.succ_lt_succ_iff, coord_cons_succ]
  | case3 offset x b y hne ih =>
    rw [isReal_cons] at hy
    obtain ⟨z, hz, hlength, hcoord⟩ := ih hx hy.2 (by simp only [List.length_cons] at h; omega)
    refine ⟨b :: z, by rw [hz]; rfl, by rw [List.length_cons, hlength, List.length_cons], ?_⟩
    rintro (_ | i)
    · rw [if_neg (by omega), add_zero]
      rfl
    · rw [coord_cons_succ, coord_cons_succ, hcoord, Nat.add_sub_add_right]
      congr 1
      exact if_congr (by omega) rfl rfl
  | case4 =>
    rw [List.length_cons, List.length_nil] at h
    omega

theorem addAt_ofCoords {offset : ℕ} (h : offset + k ≤ n) (f g : ℕ → ℝ) :
    addAt offset (ofCoords k f) (ofCoords n g) = .ok (ofCoords n fun i ↦
      g i + if offset ≤ i ∧ i < offset + k then f (i - offset) else 0) := by
  obtain ⟨z, hz, hlength, hcoord⟩ := addAt_eq_ok (isReal_ofCoords k f) (isReal_ofCoords n g) offset
    (by rwa [length_ofCoords, length_ofCoords])
  have hreal := (yields_addAt (isReal_ofCoords k f) (isReal_ofCoords n g) offset).of_eq_ok hz
  rw [hz, eq_ofCoords hreal (hlength.trans (length_ofCoords n g)) fun i hi ↦ ?_]
  rw [hcoord, coord_ofCoords hi, length_ofCoords]
  split_ifs with hcell
  · rw [coord_ofCoords (by omega)]
  · rfl

/-! ## Sums of squares -/

noncomputable def sumSq (x : Vec Extended) : ℝ := ∑ i ∈ Finset.range x.length, x.coord i * x.coord i

theorem sumSq_ofCoords (n : ℕ) (f : ℕ → ℝ) :
    sumSq (ofCoords n f) = ∑ i ∈ Finset.range n, f i * f i := by
  rw [sumSq, length_ofCoords]
  exact Finset.sum_congr rfl fun i hi ↦ by rw [coord_ofCoords (Finset.mem_range.mp hi)]

theorem sumSq_nonneg (x : Vec Extended) : 0 ≤ sumSq x :=
  Finset.sum_nonneg fun i _ ↦ mul_self_nonneg (x.coord i)

theorem normSq_eq (hx : IsReal x) : normSq x = real (sumSq x) := by
  rw [← ofCoords_coord hx, normSq, dotSum_ofCoords, sumSq_ofCoords]

theorem norm_single (x : ℝ) : norm [real x] = real |x| := by
  change Scalar.sqrt (real (0 + x * x)) = _
  rw [zero_add, sqrt_real (mul_self_nonneg x), Real.sqrt_mul_self_eq_abs]

theorem norm_pair (x y : ℝ) : norm [real x, real y] = real √(x * x + y * y) := by
  change Scalar.sqrt (real (0 + x * x + y * y)) = _
  rw [zero_add, sqrt_real (add_nonneg (mul_self_nonneg x) (mul_self_nonneg y))]

theorem norm_eq (hx : IsReal x) : norm x = real √(sumSq x) := by
  rw [norm, normSq_eq hx, sqrt_real (sumSq_nonneg x)]

theorem norm_le_iff (hx : IsReal x) {ρ : ℝ} (hρ : 0 ≤ ρ) : norm x ≤ real ρ ↔ sumSq x ≤ ρ ^ 2 := by
  rw [norm_eq hx, real_le, Real.sqrt_le_left hρ]

theorem sumSq_zeros (n : ℕ) : sumSq (zeros n) = 0 := by
  rw [zeros_eq_ofCoords, sumSq_ofCoords]
  simp

theorem norm_zeros (n : ℕ) : norm (zeros n : Vec Extended) = 0 := by
  rw [norm_eq (IsReal.zeros n), sumSq_zeros, Real.sqrt_zero, zero_eq]

theorem eq_zeros_of_sumSq_eq_zero (hx : IsReal x) (h : sumSq x = 0) : x = zeros x.length := by
  have hterms := (Finset.sum_eq_zero_iff_of_nonneg fun i _ ↦ mul_self_nonneg (x.coord i)).mp h
  rw [zeros_eq_ofCoords]
  exact eq_ofCoords hx rfl fun i hi ↦ mul_self_eq_zero.mp (hterms i (Finset.mem_range.mpr hi))

/-- Only the zero vector has norm zero. -/
theorem norm_beq_zero_iff (hx : IsReal x) : (norm x == 0) = true ↔ x = zeros x.length := by
  rw [norm_eq hx, zero_eq, real_beq, Real.sqrt_eq_zero (sumSq_nonneg x)]
  refine ⟨eq_zeros_of_sumSq_eq_zero hx, fun h ↦ ?_⟩
  rw [h, sumSq_zeros]

/-! ## The largest coordinate -/

theorem foldl_maxNum_abs (hx : IsReal x) (r : ℝ) :
    ∃ t, x.foldl (fun acc a ↦ Scalar.maxNum acc (Scalar.abs a)) (real r) = real t ∧ r ≤ t
      ∧ (∀ a ∈ x, |a.toReal| ≤ t) ∧ (t = r ∨ ∃ a ∈ x, |a.toReal| = t) := by
  induction x generalizing r with
  | nil => exact ⟨r, rfl, le_rfl, nofun, .inl rfl⟩
  | cons a x ih =>
    rw [isReal_cons] at hx
    obtain ⟨b, rfl⟩ := hx.1
    obtain ⟨t, ht, hle, hbound, hattained⟩ := ih hx.2 (max r |b|)
    refine ⟨t, ht, (le_max_left _ _).trans hle,
      List.forall_mem_cons.mpr ⟨(le_max_right _ _).trans hle, hbound⟩, ?_⟩
    rcases hattained with h | ⟨a, ha, h⟩
    · rcases max_choice r |b| with hmax | hmax
      · exact .inl (h.trans hmax)
      · exact .inr ⟨real b, List.mem_cons_self, (h.trans hmax).symm⟩
    · exact .inr ⟨a, List.mem_cons_of_mem _ ha, h⟩

/-- The norm is an upper bound of all absolute values, and it is one of them if there are any. -/
theorem maxNorm_eq (hx : IsReal x) : ∃ t, maxNorm x = real t ∧ (∀ i < x.length, |coord x i| ≤ t)
    ∧ (x ≠ [] → ∃ i < x.length, |coord x i| = t) := by
  obtain ⟨t, ht, hnonneg, hbound, hattained⟩ := foldl_maxNum_abs hx 0
  refine ⟨t, ht, (forall_coord_iff (P := fun r ↦ |r| ≤ t)).mpr hbound, fun hne ↦ ?_⟩
  obtain ⟨a, ha, h⟩ : ∃ a ∈ x, |a.toReal| = t := by
    rcases hattained with rfl | h
    · obtain ⟨a, ha⟩ := List.exists_mem_of_ne_nil x hne
      exact ⟨a, ha, le_antisymm (hbound a ha) (abs_nonneg _)⟩
    · exact h
  obtain ⟨i, hi⟩ := List.mem_iff_getElem?.mp ha
  exact ⟨i, (List.getElem?_eq_some_iff.mp hi).1, by rw [coord_of_getElem? hi, h]⟩

end Vec

namespace DenseMatrix

/-- The coefficient in row `i` and column `j`, zero outside of the matrix. -/
noncomputable def coeff (m : DenseMatrix Extended) (i j : ℕ) : ℝ := (m.entry i j).toReal

variable {m : DenseMatrix Extended}

theorem coeff_ofFn {rows cols i j : ℕ} (f : ℕ → ℕ → Extended) (hi : i < rows) (hj : j < cols) :
    (ofFn rows cols f).coeff i j = (f i j).toReal := by
  have hcolumn : (ofFn rows cols f).columns.getD j [] = (List.range rows).map fun i ↦ f i j := by
    rw [ofFn, List.getD_eq_getElem?_getD, List.getElem?_map, List.getElem?_range hj]
    rfl
  rw [coeff, entry, hcolumn, List.getD_eq_getElem?_getD, List.getElem?_map, List.getElem?_range hi]
  rfl

theorem columns_eq (hm : m.IsReal) :
    m.columns = (List.range m.cols).map fun j ↦ Vec.ofCoords m.rows fun i ↦ m.coeff i j := by
  refine List.ext_getElem? fun j ↦ ?_
  rcases lt_or_ge j m.cols with hj | hj
  · have hlt : j < m.columns.length := m.length_columns ▸ hj
    have hmem : m.columns[j] ∈ m.columns := List.getElem_mem hlt
    rw [List.getElem?_map, List.getElem?_range hj, List.getElem?_eq_getElem hlt]
    refine congrArg some (Vec.eq_ofCoords (hm _ hmem) (m.length_of_mem_columns _ hmem) fun i _ ↦ ?_)
    rw [coeff, entry, List.getD_eq_getElem _ _ hlt]
    rfl
  · rw [List.getElem?_eq_none (m.length_columns ▸ hj), List.getElem?_eq_none]
    rwa [List.length_map, List.length_range]

theorem trMulVec_ofCoords (hm : m.IsReal) (f : ℕ → ℝ) :
    m.trMulVec (Vec.ofCoords m.rows f) =
      .ok (Vec.ofCoords m.cols fun j ↦ ∑ i ∈ Finset.range m.rows, m.coeff i j * f i) := by
  rw [trMulVec, if_pos (Vec.length_ofCoords m.rows f), columns_eq hm, List.map_map]
  exact congrArg _ (List.map_congr_left fun j _ ↦ Vec.dotSum_ofCoords m.rows _ f)

theorem foldl_combination_ofCoords (rows : ℕ) (a : ℕ → ℕ → ℝ) (f : ℕ → ℝ) (js : List ℕ)
    (g : ℕ → ℝ) :
    (List.zip (js.map fun j ↦ Vec.ofCoords rows fun i ↦ a i j) (js.map fun j ↦ real (f j))).foldl
        (fun acc (c, a) ↦ List.zipWith (fun s b ↦ s + b * a) acc c) (Vec.ofCoords rows g)
      = Vec.ofCoords rows fun i ↦ g i + (js.map fun j ↦ a i j * f j).sum := by
  induction js generalizing g with
  | nil => simp only [List.map_nil, List.zip_nil_left, List.foldl_nil, List.sum_nil, add_zero]
  | cons j js ih =>
    have hstep : List.zipWith (fun s b ↦ s + b * real (f j)) (Vec.ofCoords rows g)
        (Vec.ofCoords rows fun i ↦ a i j) = Vec.ofCoords rows fun i ↦ g i + a i j * f j :=
      Vec.zipWith_ofCoords (fun s b ↦ s + b * f j) (fun _ _ ↦ rfl) rows g fun i ↦ a i j
    rw [List.map_cons, List.map_cons, List.zip_cons_cons, List.foldl_cons]
    dsimp only
    rw [hstep, ih]
    refine Vec.ofCoords_congr fun i _ ↦ ?_
    rw [List.map_cons, List.sum_cons, add_assoc]

theorem mulVec_ofCoords (hm : m.IsReal) (f : ℕ → ℝ) :
    m.mulVec (Vec.ofCoords m.cols f) =
      .ok (Vec.ofCoords m.rows fun i ↦ ∑ j ∈ Finset.range m.cols, m.coeff i j * f j) := by
  rw [mulVec, if_pos (Vec.length_ofCoords m.cols f), columns_eq hm]
  refine congrArg _ ?_
  rw [Vec.ofCoords.eq_def m.cols]
  simp only [← Vec.sum_map_range]
  cases List.range m.cols with
  | nil => exact Vec.zeros_eq_ofCoords m.rows
  | cons j js =>
    rw [List.map_cons, List.map_cons, combination, Vec.scale_ofCoords, foldl_combination_ofCoords]
    rfl

end DenseMatrix

end LogBarrier
