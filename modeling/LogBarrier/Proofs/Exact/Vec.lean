import LogBarrier.Proofs.Outcome
import LogBarrier.Scalar.Extended

/-!
# Vectors of real numbers

Vectors whose entries are all real numbers, as they occur when the algorithms are read over exact
arithmetic. The operations on vectors stay among them, and none of them raises the fault of a slack.
-/

namespace LogBarrier

open Extended

theorem forall_mem_zipWith {β γ δ : Type} {f : β → γ → δ} {P : δ → Prop} {l : List β} {k : List γ}
    (h : ∀ b ∈ l, ∀ c ∈ k, P (f b c)) : ∀ d ∈ List.zipWith f l k, P d := by
  induction l generalizing k with
  | nil => exact fun d hd ↦ (List.not_mem_nil hd).elim
  | cons b l ih =>
    cases k with
    | nil => exact fun d hd ↦ (List.not_mem_nil hd).elim
    | cons c k =>
      rw [List.zipWith_cons_cons, List.forall_mem_cons]
      exact ⟨h b List.mem_cons_self c List.mem_cons_self, ih fun b' hb' c' hc' ↦
        h b' (List.mem_cons_of_mem b hb') c' (List.mem_cons_of_mem c hc')⟩

namespace Vec

/-- All entries of the vector are real numbers. -/
def IsReal (x : Vec Extended) : Prop := ∀ a ∈ x, a.IsReal

variable {x y : Vec Extended} {a : Extended}

@[simp] theorem isReal_nil : IsReal [] := by
  intro a ha
  cases ha

@[simp] theorem isReal_cons : IsReal (a :: x) ↔ a.IsReal ∧ IsReal x := List.forall_mem_cons

theorem isReal_singleton (r : ℝ) : IsReal [real r] := isReal_cons.mpr ⟨isReal_real r, isReal_nil⟩

@[simp] theorem isReal_append : IsReal (x ++ y) ↔ IsReal x ∧ IsReal y := List.forall_mem_append

/-- A vector of real numbers comes from a list of real numbers. -/
theorem isReal_iff : IsReal x ↔ ∃ r : List ℝ, x = r.map real := by
  constructor
  · intro hx
    refine ⟨x.map toReal, ?_⟩
    rw [List.map_map]
    exact (List.map_id'' (fun _ ↦ rfl) x).symm.trans
      (List.map_congr_left fun a ha ↦ (hx a ha).eq)
  · rintro ⟨r, rfl⟩ a ha
    obtain ⟨t, -, rfl⟩ := List.mem_map.mp ha
    exact isReal_real t

namespace IsReal

theorem of_subset (hx : IsReal x) (h : y ⊆ x) : IsReal y := fun a ha ↦ hx a (h ha)

theorem take (hx : IsReal x) (n : ℕ) : IsReal (x.take n) := hx.of_subset (List.take_subset n x)

theorem drop (hx : IsReal x) (n : ℕ) : IsReal (x.drop n) := hx.of_subset (List.drop_subset n x)

theorem replicate (ha : a.IsReal) (n : ℕ) : IsReal (List.replicate n a) := by
  intro b hb
  rw [List.eq_of_mem_replicate hb]
  exact ha

theorem zeros (n : ℕ) : IsReal (zeros n) := replicate isReal_zero n

theorem getD (hx : IsReal x) (i : ℕ) : (x.getD i 0).IsReal := by
  rw [List.getD_eq_getElem?_getD]
  cases h : x[i]? with
  | none => exact isReal_zero
  | some a => exact hx a (List.mem_of_getElem? h)

theorem map {f : Extended → Extended} (hx : IsReal x)
    (hf : ∀ a : Extended, a.IsReal → (f a).IsReal) :
    IsReal (x.map f) := by
  intro b hb
  obtain ⟨a, ha, rfl⟩ := List.mem_map.mp hb
  exact hf a (hx a ha)

theorem zipWith {f : Extended → Extended → Extended} (hx : IsReal x) (hy : IsReal y)
    (hf : ∀ a b : Extended, a.IsReal → b.IsReal → (f a b).IsReal) : IsReal (List.zipWith f x y) :=
  forall_mem_zipWith fun a ha b hb ↦ hf a b (hx a ha) (hy b hb)

theorem neg (hx : IsReal x) : IsReal (neg x) := hx.map fun _ ha ↦ ha.neg

theorem scale (hx : IsReal x) (ha : a.IsReal) : IsReal (scale x a) := hx.map fun _ hb ↦ hb.mul ha

theorem foldl {f : Extended → Extended → Extended} (hx : IsReal x) (ha : a.IsReal)
    (hf : ∀ b c : Extended, b.IsReal → c.IsReal → (f b c).IsReal) : (x.foldl f a).IsReal := by
  induction x generalizing a with
  | nil => exact ha
  | cons b x ih =>
    rw [isReal_cons] at hx
    exact ih hx.2 (hf a b ha hx.1)

theorem dotSum (hx : IsReal x) (hy : IsReal y) : (dotSum x y).IsReal :=
  (hx.zipWith hy fun _ _ ha hb ↦ ha.mul hb).foldl isReal_zero fun _ _ hb hc ↦ hb.add hc

theorem normSq (hx : IsReal x) : (normSq x).IsReal := hx.dotSum hx

end IsReal

/-! ## Sums of products -/

theorem dotSum_map_real (r t : List ℝ) :
    dotSum (r.map real) (t.map real) = real (List.zipWith (· * ·) r t).sum := by
  have hfold : ∀ (l : List ℝ) (c : ℝ), (l.map real).foldl (· + ·) (real c) = real (c + l.sum) := by
    intro l
    induction l with
    | nil => intro c; simp
    | cons b l ih =>
      intro c
      rw [List.map_cons, List.foldl_cons, real_add, ih, List.sum_cons, add_assoc]
  rw [dotSum, List.zipWith_map, zero_eq]
  have hmap : List.zipWith (fun a b ↦ real a * real b) r t
      = (List.zipWith (· * ·) r t).map real := by
    rw [List.map_zipWith]
    rfl
  rw [hmap, hfold, zero_add]

theorem dotSum_eq_zero (hx : IsReal x) (hy : ∀ a ∈ y, a = 0) : dotSum x y = 0 := by
  have hproducts : ∀ a ∈ List.zipWith (· * ·) x y, a = 0 :=
    forall_mem_zipWith fun a ha b hb ↦ by
      obtain ⟨r, rfl⟩ := hx a ha
      rw [hy b hb, zero_eq, real_mul, mul_zero]
  rw [dotSum]
  generalize List.zipWith (· * ·) x y = l at hproducts
  induction l with
  | nil => rfl
  | cons a l ih =>
    rw [List.forall_mem_cons] at hproducts
    rw [List.foldl_cons, hproducts.1, zero_eq, real_add, add_zero]
    exact ih hproducts.2

theorem isReal_of_eq_zero (hx : ∀ a ∈ x, a = 0) : IsReal x := fun a ha ↦ hx a ha ▸ isReal_zero

theorem normSq_map_real (r : List ℝ) : normSq (r.map real) = real (r.map (· ^ 2)).sum := by
  rw [normSq, dotSum_map_real, List.zipWith_self]
  simp only [sq]

theorem toReal_normSq_nonneg (hx : IsReal x) : 0 ≤ (normSq x).toReal := by
  obtain ⟨r, rfl⟩ := isReal_iff.mp hx
  rw [normSq_map_real, toReal_real]
  exact List.sum_nonneg fun a ha ↦ by
    obtain ⟨t, -, rfl⟩ := List.mem_map.mp ha
    exact sq_nonneg t

theorem IsReal.norm (hx : IsReal x) : (norm x).IsReal := hx.normSq.sqrt (toReal_normSq_nonneg hx)

/-! ## Operations that can fault -/

theorem yields_combine {f : Extended → Extended → Extended} (hx : IsReal x) (hy : IsReal y)
    (hf : ∀ a b : Extended, a.IsReal → b.IsReal → (f a b).IsReal) :
    Yields IsReal (combine f x y) := by
  rw [combine]
  split
  · exact Ensures.ok (hx.zipWith hy hf)
  · exact Ensures.error (by decide)

theorem yields_add (hx : IsReal x) (hy : IsReal y) : Yields IsReal (add x y) :=
  yields_combine hx hy fun _ _ ha hb ↦ ha.add hb

theorem yields_sub (hx : IsReal x) (hy : IsReal y) : Yields IsReal (sub x y) :=
  yields_combine hx hy fun _ _ ha hb ↦ ha.sub hb

theorem yields_mul (hx : IsReal x) (hy : IsReal y) : Yields IsReal (mul x y) :=
  yields_combine hx hy fun _ _ ha hb ↦ ha.mul hb

theorem yields_entry (hx : IsReal x) (i : ℕ) : Yields Extended.IsReal (entry x i) := by
  rw [entry]
  split
  next a h => exact Ensures.ok (hx a (List.mem_of_getElem? h))
  next => exact Ensures.error (by decide)

theorem yields_dot (hx : IsReal x) (hy : IsReal y) : Yields Extended.IsReal (dot x y) := by
  rw [dot]
  split
  · exact Ensures.ok (hx.dotSum hy)
  · exact Ensures.error (by decide)

theorem yields_slice (hx : IsReal x) (offset size : ℕ) : Yields IsReal (slice x offset size) := by
  rw [slice]
  split
  · exact Ensures.ok ((hx.drop offset).take size)
  · exact Ensures.error (by decide)

theorem yields_takeExactly (hx : IsReal x) (n : ℕ) :
    Yields (fun z ↦ IsReal z ∧ z = x.take n) (takeExactly n x) := by
  rw [takeExactly]
  split
  · exact Ensures.ok ⟨hx.take n, rfl⟩
  · exact Ensures.error (by decide)

theorem yields_addAt (hx : IsReal x) (hy : IsReal y) (offset : ℕ) :
    Yields IsReal (addAt offset x y) := by
  fun_induction addAt offset x y with
  | case1 offset y => exact Ensures.ok hy
  | case2 a x b y ih =>
    rw [isReal_cons] at hx hy
    exact (ih hx.2 hy.2).bind fun z hz ↦ Ensures.pure (isReal_cons.mpr ⟨hy.1.add hx.1, hz⟩)
  | case3 offset x b y hne ih =>
    rw [isReal_cons] at hy
    exact (ih hx hy.2).bind fun z hz ↦ Ensures.pure (isReal_cons.mpr ⟨hy.1, hz⟩)
  | case4 => exact Ensures.error (by decide)

end Vec

end LogBarrier
