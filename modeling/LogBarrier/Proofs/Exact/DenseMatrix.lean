import LogBarrier.DenseMatrix.Basic
import LogBarrier.DenseMatrix.Triangular
import LogBarrier.Proofs.Exact.Vec

/-!
# Matrices of real numbers

Products and triangular systems of matrices whose entries are all real numbers. A triangular solve
divides only by a pivot that it has compared with zero, so its result consists of real numbers, too.
-/

namespace LogBarrier

open Extended

namespace DenseMatrix

def IsReal (m : DenseMatrix Extended) : Prop := ∀ c ∈ m.columns, Vec.IsReal c

variable {m : DenseMatrix Extended} {x y : Vec Extended}

theorem isReal_ofFn {rows cols : ℕ} {f : ℕ → ℕ → Extended} (hf : ∀ i j, (f i j).IsReal) :
    IsReal (ofFn rows cols f) := by
  intro c hc a ha
  obtain ⟨j, -, rfl⟩ := List.mem_map.mp hc
  obtain ⟨i, -, rfl⟩ := List.mem_map.mp ha
  exact hf i j

theorem isReal_getD {rows : List (Vec Extended)} (h : ∀ r ∈ rows, Vec.IsReal r) (i : ℕ) :
    Vec.IsReal (rows.getD i []) := by
  rw [List.getD_eq_getElem?_getD]
  cases hi : rows[i]? with
  | none => exact Vec.isReal_nil
  | some r => exact h r (List.mem_of_getElem? hi)

theorem isReal_ofRows {cols : ℕ} {rows : List (Vec Extended)} (h : ∀ r ∈ rows, Vec.IsReal r) :
    IsReal (ofRows cols rows) :=
  isReal_ofFn fun i j ↦ (isReal_getD h i).getD j

theorem isReal_zeros (rows cols : ℕ) : IsReal (zeros rows cols) :=
  isReal_ofFn fun _ _ ↦ isReal_zero

theorem isReal_diagonal {d : Vec Extended} (hd : Vec.IsReal d) : IsReal (diagonal d) :=
  isReal_ofFn fun i j ↦ by
    split
    · exact hd.getD i
    · exact isReal_zero

namespace IsReal

theorem getD (hm : m.IsReal) (j : ℕ) : Vec.IsReal (m.columns.getD j []) := isReal_getD hm j

theorem entry (hm : m.IsReal) (i j : ℕ) : (m.entry i j).IsReal := (hm.getD j).getD i

theorem row (hm : m.IsReal) (i : ℕ) : Vec.IsReal (m.row i) := by
  intro a ha
  obtain ⟨c, hc, rfl⟩ := List.mem_map.mp ha
  exact (hm c hc).getD i

theorem transpose (hm : m.IsReal) : m.transpose.IsReal := isReal_ofFn fun i j ↦ hm.entry j i

theorem setBlock (hm : m.IsReal) {block : DenseMatrix Extended} (hblock : block.IsReal)
    (top left : ℕ) : (m.setBlock top left block).IsReal :=
  isReal_ofFn fun i j ↦ by
    split
    · exact hblock.entry _ _
    · exact hm.entry i j

end IsReal

/-! ## Products -/

theorem isReal_foldl_combination {acc : Vec Extended} (hacc : Vec.IsReal acc)
    (l : List (Vec Extended × Extended)) (hl : ∀ p ∈ l, Vec.IsReal p.1 ∧ p.2.IsReal) :
    Vec.IsReal (l.foldl (fun acc (c, a) ↦ List.zipWith (fun s b ↦ s + b * a) acc c) acc) := by
  induction l generalizing acc with
  | nil => exact hacc
  | cons p l ih =>
    have hp := hl p List.mem_cons_self
    exact ih (hacc.zipWith hp.1 fun s b hs hb ↦ hs.add (hb.mul hp.2))
      fun q hq ↦ hl q (List.mem_cons_of_mem p hq)

theorem isReal_combination {columns : List (Vec Extended)} (h : ∀ c ∈ columns, Vec.IsReal c)
    (hx : Vec.IsReal x) (rows : ℕ) : Vec.IsReal (combination rows columns x) := by
  cases columns with
  | nil => exact Vec.IsReal.zeros rows
  | cons c columns =>
    cases x with
    | nil => exact Vec.IsReal.zeros rows
    | cons a x =>
      rw [Vec.isReal_cons] at hx
      refine isReal_foldl_combination ((h c List.mem_cons_self).scale hx.1) _ fun p hp ↦ ?_
      obtain ⟨hc, ha⟩ := List.of_mem_zip hp
      exact ⟨h p.1 (List.mem_cons_of_mem c hc), hx.2 p.2 ha⟩

theorem yields_mulVec (hm : m.IsReal) (hx : Vec.IsReal x) : Yields Vec.IsReal (m.mulVec x) := by
  rw [mulVec]
  split
  · exact Ensures.ok (isReal_combination hm hx m.rows)
  · exact Ensures.error (by decide)

theorem yields_trMulVec (hm : m.IsReal) (hy : Vec.IsReal y) : Yields Vec.IsReal (m.trMulVec y) := by
  rw [trMulVec]
  split
  · refine Ensures.ok fun a ha ↦ ?_
    obtain ⟨c, hc, rfl⟩ := List.mem_map.mp ha
    exact (hm c hc).dotSum hy
  · exact Ensures.error (by decide)

/-! ## Triangular systems -/

theorem yields_dividePivot {a pivot : Extended} (ha : a.IsReal) (hpivot : pivot.IsReal) :
    Yields Extended.IsReal (dividePivot a pivot) := by
  obtain ⟨p, rfl⟩ := hpivot
  rw [dividePivot]
  split
  · exact Ensures.error (by decide)
  next h =>
    refine Ensures.ok (ha.div (isReal_real p) fun hp ↦ h ?_)
    exact real_beq.mpr hp

theorem yields_solveUpperFrom (hm : m.IsReal) (hy : Vec.IsReal y) (i count : ℕ) :
    Yields Vec.IsReal (solveUpperFrom m y i count) := by
  induction count generalizing i with
  | zero => exact Ensures.ok Vec.isReal_nil
  | succ count ih =>
    refine (ih (i + 1)).bind fun u hu ↦ ?_
    have hright : ∀ l : List (Extended × Extended), (∀ p ∈ l, p.1.IsReal ∧ p.2.IsReal) →
        (l.foldr (fun (a, u) acc ↦ acc - u * a) (y.getD i 0)).IsReal := by
      intro l hl
      induction l with
      | nil => exact hy.getD i
      | cons p l ihl =>
        have hp := hl p List.mem_cons_self
        exact (ihl fun q hq ↦ hl q (List.mem_cons_of_mem p hq)).sub (hp.2.mul hp.1)
    refine (yields_dividePivot (hright _ fun p hp ↦ ?_) (hm.entry i i)).bind fun a ha ↦
      Ensures.pure (Vec.isReal_cons.mpr ⟨ha, hu⟩)
    obtain ⟨ha, hb⟩ := List.of_mem_zip hp
    exact ⟨(hm.row i).drop (i + 1) p.1 ha, hu p.2 hb⟩

theorem yields_solveUpper (hm : m.IsReal) (hy : Vec.IsReal y) :
    Yields Vec.IsReal (m.solveUpper y) := by
  rw [solveUpper]
  split
  · exact yields_solveUpperFrom hm hy 0 m.cols
  · exact Ensures.error (by decide)

theorem yields_solveLowerFrom {columns : List (Vec Extended)} (h : ∀ c ∈ columns, Vec.IsReal c)
    (hx : Vec.IsReal x) (hy : Vec.IsReal y) : Yields Vec.IsReal (solveLowerFrom x columns y) := by
  induction columns generalizing x y with
  | nil =>
    rw [solveLowerFrom.eq_def]
    exact Ensures.ok hx
  | cons c columns ih =>
    cases y with
    | nil => exact Ensures.ok hx
    | cons b y =>
      rw [Vec.isReal_cons] at hy
      have hc := h c List.mem_cons_self
      refine (yields_dividePivot (hy.1.sub (hc.dotSum hx)) (hc.getD x.length)).bind fun u hu ↦ ?_
      exact ih (fun d hd ↦ h d (List.mem_cons_of_mem c hd))
        (Vec.isReal_append.mpr ⟨hx, Vec.isReal_cons.mpr ⟨hu, Vec.isReal_nil⟩⟩) hy.2

theorem yields_solveTransposed (hm : m.IsReal) (hy : Vec.IsReal y) :
    Yields Vec.IsReal (m.solveTransposed y) := by
  rw [solveTransposed]
  split
  · exact yields_solveLowerFrom hm Vec.isReal_nil hy
  · exact Ensures.error (by decide)

/-! ## Zero right hand sides -/

theorem yields_dividePivot_zero {pivot : Extended} (hpivot : pivot.IsReal) :
    Yields (fun a ↦ a = 0) (dividePivot 0 pivot) := by
  obtain ⟨p, rfl⟩ := hpivot
  rw [dividePivot]
  split
  · exact Ensures.error (by decide)
  next h =>
    refine Ensures.ok ?_
    rw [zero_eq, real_div fun hp ↦ h (real_beq.mpr hp), zero_div]

theorem yields_solveLowerFrom_zero {columns : List (Vec Extended)}
    (h : ∀ c ∈ columns, Vec.IsReal c) (hx : ∀ a ∈ x, a = 0) (hy : ∀ a ∈ y, a = 0) :
    Yields (fun z ↦ ∀ a ∈ z, a = 0) (solveLowerFrom x columns y) := by
  induction columns generalizing x y with
  | nil =>
    rw [solveLowerFrom.eq_def]
    exact Ensures.ok hx
  | cons c columns ih =>
    obtain _ | ⟨b, y⟩ := y
    · exact Ensures.ok hx
    · rw [List.forall_mem_cons] at hy
      rw [solveLowerFrom, Vec.dotSum_eq_zero (h c List.mem_cons_self) hx, hy.1]
      have hpivot := (h c List.mem_cons_self).getD x.length
      rw [zero_eq, real_sub, sub_zero]
      refine (yields_dividePivot_zero hpivot).bind fun u hu ↦
        ih (fun d hd ↦ h d (List.mem_cons_of_mem c hd)) ?_ hy.2
      rw [List.forall_mem_append, List.forall_mem_singleton]
      exact ⟨hx, hu⟩

theorem combination_eq_zero {columns : List (Vec Extended)} (h : ∀ c ∈ columns, Vec.IsReal c)
    (hx : ∀ a ∈ x, a = 0) (rows : ℕ) : ∀ a ∈ combination rows columns x, a = 0 := by
  have hzeros : ∀ a ∈ (Vec.zeros rows : Vec Extended), a = 0 :=
    fun a ha ↦ List.eq_of_mem_replicate ha
  cases columns with
  | nil => exact hzeros
  | cons c columns =>
    cases x with
    | nil => exact hzeros
    | cons b x =>
      rw [List.forall_mem_cons] at hx
      have hterm : ∀ r : Extended, r.IsReal → r * 0 = 0 := by
        rintro r ⟨t, rfl⟩
        rw [zero_eq, real_mul, mul_zero]
      have hfold : ∀ (l : List (Vec Extended × Extended)) (acc : Vec Extended),
          (∀ q ∈ l, Vec.IsReal q.1 ∧ q.2 = 0) → (∀ a ∈ acc, a = 0) →
            ∀ a ∈ l.foldl (fun acc (c, a) ↦ List.zipWith (fun s b ↦ s + b * a) acc c) acc,
              a = 0 := by
        intro l
        induction l with
        | nil => exact fun acc _ hacc ↦ hacc
        | cons q l ih =>
          intro acc hl hacc
          rw [List.forall_mem_cons] at hl
          refine ih _ hl.2 (forall_mem_zipWith fun s hs r hr ↦ ?_)
          rw [hacc s hs, hl.1.2, hterm r (hl.1.1 r hr), zero_eq, real_add, add_zero]
      refine hfold _ _ (fun q hq ↦ ?_) fun a ha ↦ ?_
      · obtain ⟨hc, ha⟩ := List.of_mem_zip hq
        exact ⟨h _ (List.mem_cons_of_mem c hc), hx.2 _ ha⟩
      · obtain ⟨r, hr, rfl⟩ := List.mem_map.mp ha
        rw [hx.1, hterm r (h c List.mem_cons_self r hr)]

end DenseMatrix

end LogBarrier
