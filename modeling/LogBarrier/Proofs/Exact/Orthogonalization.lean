import LogBarrier.Proofs.Exact.Reflection

/-!
# Orthogonal factorization of real matrices

Over the real numbers the columns of the orthogonal factor are orthonormal, the triangular factor
vanishes below its diagonal, and the product of the two is the matrix. So the factorization is exact
for every matrix that is not wider than high, also if its columns are dependent.

## The recursion

A reflection sends the first column to a multiple of the first unit vector. If the remaining
columns, reflected and without their first entries, are a product of smaller factors, then the
reflected matrix is the product of the bordered factors. The reflection undoes itself, so applying
it once more gives the matrix back, and the orthogonal factor is the reflected border.
-/

namespace LogBarrier

open Extended

namespace Vec

def prepend (a : ℝ) (f : ℕ → ℝ) : ℕ → ℝ
  | 0 => a
  | i + 1 => f i

theorem cons_ofCoords (a : ℝ) (n : ℕ) (f : ℕ → ℝ) :
    real a :: ofCoords n f = ofCoords (n + 1) (prepend a f) := (ofCoords_succ n (prepend a f)).symm

theorem tail_ofCoords (n : ℕ) (f : ℕ → ℝ) :
    (ofCoords (n + 1) f).tail = ofCoords n fun i ↦ f (i + 1) := by
  rw [ofCoords_succ, List.tail_cons]

theorem sum_prepend_mul (n : ℕ) (a b : ℝ) (f g : ℕ → ℝ) :
    ∑ i ∈ Finset.range (n + 1), prepend a f i * prepend b g i =
      a * b + ∑ i ∈ Finset.range n, f i * g i := by
  rw [Finset.sum_range_succ', add_comm]
  rfl

theorem resize_ofCoords (n : ℕ) (f : ℕ → ℝ) : resize n (ofCoords n f) = ofCoords n f := by
  have hlength := length_ofCoords n f
  rw [resize, List.take_of_length_le hlength.le, hlength, Nat.sub_self]
  exact List.append_nil _

/-- The vectors of one length with the given coordinates. -/
noncomputable def family (count n : ℕ) (F : ℕ → ℕ → ℝ) : List (Vec Extended) :=
  (List.range count).map fun k ↦ ofCoords n (F k)

@[simp] theorem length_family (count n : ℕ) (F : ℕ → ℕ → ℝ) :
    (family count n F).length = count := by
  rw [family, List.length_map, List.length_range]

theorem family_succ (count n : ℕ) (F : ℕ → ℕ → ℝ) :
    family (count + 1) n F = ofCoords n (F 0) :: family count n fun k ↦ F (k + 1) := by
  rw [family, List.range_succ_eq_map, List.map_cons, List.map_map]
  rfl

theorem map_family {op : Vec Extended → Vec Extended} {count n k : ℕ} {F G : ℕ → ℕ → ℝ}
    (h : ∀ j, op (ofCoords n (F j)) = ofCoords k (G j)) :
    (family count n F).map op = family count k G := by
  rw [family, List.map_map]
  exact List.map_congr_left fun j _ ↦ h j

theorem zipWith_head_family (count n k : ℕ) (F G : ℕ → ℕ → ℝ) :
    List.zipWith (fun w r ↦ w.headD 0 :: r) (family count (n + 1) F) (family count k G) =
      family count (k + 1) fun j ↦ prepend (F j 0) (G j) := by
  rw [family, family, List.zipWith_map, List.zipWith_self]
  refine List.map_congr_left fun j _ ↦ ?_
  rw [ofCoords_succ, List.headD_cons, cons_ofCoords]

end Vec

namespace OrthogonalFactors

/-- The columns with coordinates `V` are the combinations of the orthonormal columns `Q` with the
coefficients in the columns `R`. -/
structure Exact (count height : ℕ) (V Q R : ℕ → ℕ → ℝ) : Prop where
  orthonormal : ∀ j < count, ∀ k < count,
    ∑ i ∈ Finset.range height, Q j i * Q k i = if j = k then 1 else 0
  product : ∀ k < count, ∀ i < height, V k i = ∑ j ∈ Finset.range count, R k j * Q j i
  triangular : ∀ k j, k < j → R k j = 0

section Border

variable {count height : ℕ} {V Q R : ℕ → ℕ → ℝ} {a : ℕ → ℝ} {σ p : ℝ}

def border (Q : ℕ → ℕ → ℝ) : ℕ → ℕ → ℝ
  | 0 => Vec.prepend 1 fun _ ↦ 0
  | k + 1 => Vec.prepend 0 (Q k)

/-- The triangular factor with a leading row and the pivot as its first column. -/
def borderTriangular (p : ℝ) (u : ℕ → ℝ) (R : ℕ → ℕ → ℝ) : ℕ → ℕ → ℝ
  | 0 => Vec.prepend p fun _ ↦ 0
  | k + 1 => Vec.prepend (u k) (R k)

theorem sum_border_mul (h : Exact count height V Q R) :
    ∀ j < count + 1, ∀ k < count + 1,
      ∑ i ∈ Finset.range (height + 1), border Q j i * border Q k i = if j = k then 1 else 0 := by
  rintro (_ | j) hj (_ | k) hk
  · rw [border, Vec.sum_prepend_mul]
    simp
  · rw [border, border, Vec.sum_prepend_mul]
    simp
  · rw [border, border, Vec.sum_prepend_mul]
    simp
  · rw [border, border, Vec.sum_prepend_mul, zero_mul, zero_add,
      h.orthonormal j (Nat.lt_of_succ_lt_succ hj) k (Nat.lt_of_succ_lt_succ hk)]
    simp

theorem sum_borderTriangular_mul (u : ℕ → ℝ) (k i : ℕ) :
    ∑ j ∈ Finset.range (count + 1), borderTriangular p u R k j * border Q j i =
      borderTriangular p u R k 0 * border Q 0 i
        + ∑ j ∈ Finset.range count, borderTriangular p u R k (j + 1) * border Q (j + 1) i := by
  rw [Finset.sum_range_succ', add_comm]

/-- The reflected columns are combinations of the bordered factor. -/
theorem image_eq_sum_border
    (h : Exact count height (fun k i ↦ Reflection.image (height + 1) a σ (V (k + 1)) (i + 1)) Q R)
    (hfirst : ∀ i < height + 1,
      Reflection.image (height + 1) a σ (V 0) i = if i = 0 then p else 0) :
    ∀ k < count + 1, ∀ i < height + 1, Reflection.image (height + 1) a σ (V k) i =
      ∑ j ∈ Finset.range (count + 1),
        borderTriangular p (fun k ↦ Reflection.image (height + 1) a σ (V (k + 1)) 0) R k j
          * border Q j i := by
  rintro (_ | k) hk (_ | i) hi
  · rw [sum_borderTriangular_mul, hfirst 0 hi]
    simp [borderTriangular, border, Vec.prepend]
  · rw [sum_borderTriangular_mul, hfirst (i + 1) hi]
    simp [borderTriangular, border, Vec.prepend]
  · rw [sum_borderTriangular_mul]
    simp [borderTriangular, border, Vec.prepend]
  · rw [sum_borderTriangular_mul,
      h.product k (Nat.lt_of_succ_lt_succ hk) i (Nat.lt_of_succ_lt_succ hi)]
    simp [borderTriangular, border, Vec.prepend]

/-- Reflecting the bordered factor gives a factor of the columns themselves. -/
theorem Exact.reflected (horthogonal : Reflection.IsOrthogonal (height + 1) a σ)
    (h : Exact count height (fun k i ↦ Reflection.image (height + 1) a σ (V (k + 1)) (i + 1)) Q R)
    (hfirst : ∀ i < height + 1,
      Reflection.image (height + 1) a σ (V 0) i = if i = 0 then p else 0) :
    Exact (count + 1) (height + 1) V
      (fun k ↦ Reflection.image (height + 1) a σ (border Q k))
      (borderTriangular p (fun k ↦ Reflection.image (height + 1) a σ (V (k + 1)) 0) R) where
  orthonormal j hj k hk := by
    rw [horthogonal.sum_image_mul]
    exact sum_border_mul h j hj k hk
  product k hk i hi := by
    rw [← Reflection.image_sum, ← horthogonal.image_image (V k) i]
    exact Reflection.image_congr (fun j hj ↦ image_eq_sum_border h hfirst k hk j hj) hi
  triangular k j hkj := by
    obtain _ | j := j
    · exact absurd hkj (Nat.not_lt_zero k)
    · obtain _ | k := k
      · rfl
      · exact h.triangular k j (Nat.lt_of_succ_lt_succ hkj)

end Border

/-- Columns of real numbers, not more than their height, are factored exactly. -/
theorem exists_exact (count height : ℕ) (V : ℕ → ℕ → ℝ) (h : count ≤ height) :
    ∃ Q R, ofColumns height count (Vec.family count height V) =
        ⟨Vec.family count height Q, Vec.family count count R⟩
      ∧ Exact count height V Q R := by
  -- The induction follows the recursion: each column takes one entry off the height of the others.
  induction count generalizing height V with
  | zero => exact ⟨fun _ _ ↦ 0, fun _ _ ↦ 0, rfl, nofun, nofun, fun _ _ _ ↦ rfl⟩
  | succ count ih =>
    obtain _ | height := height
    · exact absurd h (Nat.not_succ_le_zero count)
    obtain ⟨a, p, σ, hclearing, horthogonal, -, hfirst⟩ :=
      Reflection.clearing_ofCoords height (V 0)
    let u : ℕ → ℕ → ℝ := fun k ↦ Reflection.image (height + 1) a σ (V (k + 1))
    obtain ⟨Q, R, hinner, hexact⟩ := ih height (fun k i ↦ u k (i + 1)) (Nat.le_of_succ_le_succ h)
    refine ⟨_, _, ?_, hexact.reflected horthogonal hfirst⟩
    have happly (F : ℕ → ℕ → ℝ) (k : ℕ) :
        (Vec.family k (height + 1) F).map
            (Reflection.apply ⟨Vec.ofCoords (height + 1) a, real p, real σ⟩) =
          Vec.family k (height + 1) fun j ↦ Reflection.image (height + 1) a σ (F j) :=
      Vec.map_family fun j ↦ Reflection.apply_ofCoords (height + 1) a (F j) p σ
    have htail : (Vec.family count (height + 1) u).map List.tail =
        Vec.family count height fun k i ↦ u k (i + 1) :=
      Vec.map_family fun j ↦ Vec.tail_ofCoords height (u j)
    have hborder : (1 :: Vec.zeros height) :: (Vec.family count height Q).map (0 :: ·) =
        Vec.family (count + 1) (height + 1) (border Q) := by
      rw [Vec.family_succ, Vec.zeros_eq_ofCoords]
      exact congrArg₂ _ (Vec.cons_ofCoords 1 height _)
        (Vec.map_family fun j ↦ Vec.cons_ofCoords 0 height (Q j))
    have htriangular : (real |p| :: Vec.zeros count) ::
        List.zipWith (fun w r ↦ w.headD 0 :: r) (Vec.family count (height + 1) u)
          (Vec.family count count R) =
        Vec.family (count + 1) (count + 1) (borderTriangular |p| (fun k ↦ u k 0) R) := by
      rw [Vec.zipWith_head_family, Vec.family_succ, Vec.zeros_eq_ofCoords]
      exact congrArg (· :: _) (Vec.cons_ofCoords |p| count _)
    rw [Vec.family_succ, ofColumns, hclearing]
    simp only [happly, Nat.add_sub_cancel]
    rw [htail, hinner]
    simp only [hborder, happly, abs_real]
    exact congrArg _ htriangular

end OrthogonalFactors

namespace DenseMatrix

variable {m : DenseMatrix Extended}

theorem columns_eq_family (hm : m.IsReal) :
    m.columns = Vec.family m.cols m.rows fun j i ↦ m.coeff i j := columns_eq hm

theorem ofColumns_family (count n : ℕ) (F : ℕ → ℕ → ℝ) :
    (ofColumns n (Vec.family count n F)).IsReal
      ∧ ∀ i < n, ∀ j < count, (ofColumns n (Vec.family count n F)).coeff i j = F j i := by
  have hcolumns : (ofColumns n (Vec.family count n F)).columns = Vec.family count n F :=
    Vec.map_family fun j ↦ Vec.resize_ofCoords n (F j)
  constructor
  · rw [IsReal, hcolumns]
    intro c hc
    obtain ⟨j, -, rfl⟩ := List.mem_map.mp hc
    exact Vec.isReal_ofCoords n (F j)
  · intro i hi j hj
    have hget : (Vec.family count n F).getD j [] = Vec.ofCoords n (F j) := by
      rw [Vec.family, List.getD_eq_getElem?_getD, List.getElem?_map, List.getElem?_range hj]
      rfl
    rw [coeff, entry, hcolumns, hget]
    exact Vec.coord_ofCoords hi

/-- The matrix is the product of the two others, of which the first has orthonormal columns and the
second vanishes below its diagonal. -/
structure IsFactored (m q r : DenseMatrix Extended) : Prop where
  isReal_orthogonal : q.IsReal
  isReal_triangular : r.IsReal
  rows_orthogonal : q.rows = m.rows
  cols_orthogonal : q.cols = m.cols
  rows_triangular : r.rows = m.cols
  cols_triangular : r.cols = m.cols
  orthonormal : ∀ j < m.cols, ∀ k < m.cols,
    ∑ i ∈ Finset.range m.rows, q.coeff i j * q.coeff i k = if j = k then 1 else 0
  product : ∀ i < m.rows, ∀ j < m.cols,
    m.coeff i j = ∑ k ∈ Finset.range m.cols, q.coeff i k * r.coeff k j
  triangular : ∀ i < m.cols, ∀ j < i, r.coeff i j = 0

theorem IsFactored.sum_mul_combination {m q r : DenseMatrix Extended} (h : m.IsFactored q r)
    (c : ℕ → ℝ) {l : ℕ} (hl : l < m.cols) :
    ∑ i ∈ Finset.range m.rows, q.coeff i l * ∑ k ∈ Finset.range m.cols, q.coeff i k * c k =
      c l := by
  have hterm : ∀ i, q.coeff i l * ∑ k ∈ Finset.range m.cols, q.coeff i k * c k =
      ∑ k ∈ Finset.range m.cols, c k * (q.coeff i l * q.coeff i k) := fun i ↦ by
    rw [Finset.mul_sum]
    exact Finset.sum_congr rfl fun k _ ↦ by ring
  have hcolumn : ∀ k ∈ Finset.range m.cols, ∑ i ∈ Finset.range m.rows,
      c k * (q.coeff i l * q.coeff i k) = if l = k then c k else 0 := by
    intro k hk
    rw [← Finset.mul_sum, h.orthonormal l hl k (Finset.mem_range.mp hk), mul_ite, mul_one, mul_zero]
  rw [Finset.sum_congr rfl fun i _ ↦ hterm i, Finset.sum_comm, Finset.sum_congr rfl hcolumn,
    Finset.sum_ite_eq, if_pos (Finset.mem_range.mpr hl)]

/-- The columns of the matrix and those of the triangular factor have the same inner products. -/
theorem IsFactored.gram {m q r : DenseMatrix Extended} (h : m.IsFactored q r) {i j : ℕ}
    (hi : i < m.cols) (hj : j < m.cols) :
    ∑ l ∈ Finset.range m.rows, m.coeff l i * m.coeff l j =
      ∑ k ∈ Finset.range m.cols, r.coeff k i * r.coeff k j := by
  have hterm : ∀ l ∈ Finset.range m.rows, m.coeff l i * m.coeff l j =
      ∑ k ∈ Finset.range m.cols,
        r.coeff k i * (q.coeff l k * ∑ k' ∈ Finset.range m.cols, q.coeff l k' * r.coeff k' j) := by
    intro l hl
    rw [← h.product l (Finset.mem_range.mp hl) j hj, h.product l (Finset.mem_range.mp hl) i hi,
      Finset.sum_mul]
    exact Finset.sum_congr rfl fun k _ ↦ by ring
  rw [Finset.sum_congr rfl hterm, Finset.sum_comm]
  refine Finset.sum_congr rfl fun k hk ↦ ?_
  rw [← Finset.mul_sum, h.sum_mul_combination (fun k' ↦ r.coeff k' j) (Finset.mem_range.mp hk)]

/-- **Exact factorization.** A matrix of real numbers that is not wider than high is the product of
its two factors. -/
theorem isFactored_qr (hm : m.IsReal) (h : m.cols ≤ m.rows) : m.IsFactored m.qr.1 m.qr.2 := by
  obtain ⟨Q, R, hfactors, hexact⟩ :=
    OrthogonalFactors.exists_exact m.cols m.rows (fun j i ↦ m.coeff i j) h
  have hqr : m.qr = (ofColumns m.rows (Vec.family m.cols m.rows Q),
      ofColumns m.cols (Vec.family m.cols m.cols R)) := by
    rw [qr, columns_eq_family hm, hfactors]
  obtain ⟨hQreal, hQ⟩ := ofColumns_family m.cols m.rows Q
  obtain ⟨hRreal, hR⟩ := ofColumns_family m.cols m.cols R
  rw [hqr]
  exact {
    isReal_orthogonal := hQreal
    isReal_triangular := hRreal
    rows_orthogonal := rfl
    cols_orthogonal := Vec.length_family _ _ _
    rows_triangular := rfl
    cols_triangular := Vec.length_family _ _ _
    orthonormal := fun j hj k hk ↦ by
      rw [← hexact.orthonormal j hj k hk]
      refine Finset.sum_congr rfl fun i hi ↦ ?_
      rw [hQ i (Finset.mem_range.mp hi) j hj, hQ i (Finset.mem_range.mp hi) k hk]
    product := fun i hi j hj ↦ by
      rw [hexact.product j hj i hi]
      refine Finset.sum_congr rfl fun k hk ↦ ?_
      rw [hQ i hi k (Finset.mem_range.mp hk), hR k (Finset.mem_range.mp hk) j hj, mul_comm]
    triangular := fun i hi j hj ↦ by
      rw [hR i hi j (hj.trans hi), hexact.triangular j i hj] }

/-- The function returns exact factors of every matrix of real numbers that is not wider than
high. -/
def Factorizes (factorize : DenseMatrix Extended → DenseMatrix Extended × DenseMatrix Extended) :
    Prop :=
  ∀ k : DenseMatrix Extended, k.IsReal → k.cols ≤ k.rows → k.IsFactored (factorize k).1
    (factorize k).2

theorem factorizes_qr : Factorizes qr := fun _ hreal hshape ↦ isFactored_qr hreal hshape

end DenseMatrix

end LogBarrier
