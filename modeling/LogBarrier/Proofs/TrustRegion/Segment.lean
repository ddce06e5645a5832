import LogBarrier.Proofs.Exact.Vec
import LogBarrier.TrustRegion.Segment

/-!
# Points of a line in a box

A search along a line returns a segment, and every point of the segment is in the box. The bounds of
the box may be infinite, but no slab is empty, so the two parameters where the line meets a slab
come in the right order. This is so if the bounds admit the origin.
-/

namespace LogBarrier

open Extended

namespace Vec

/-- Every entry that has both bounds lies between them. -/
def Fits (x lower upper : Vec Extended) : Prop :=
  ∀ (i : ℕ) (a l u : Extended),
    x[i]? = some a → lower[i]? = some l → upper[i]? = some u → l ≤ a ∧ a ≤ u

structure AdmitZero (lower upper : Vec Extended) : Prop where
  lower_le : ∀ l ∈ lower, l ≤ 0
  le_upper : ∀ u ∈ upper, 0 ≤ u

/-- Between the two bounds of every coordinate there is a real number. -/
def AdmitPoint (lower upper : Vec Extended) : Prop :=
  ∀ (i : ℕ) (l u : Extended),
    lower[i]? = some l → upper[i]? = some u → ∃ r : ℝ, l ≤ real r ∧ real r ≤ u

/-- The bounds do not exclude all real numbers. They may be crossed, and they need not admit the
zero vector. -/
structure AdmitReals (lower upper : Vec Extended) : Prop where
  lower_ne : ∀ l ∈ lower, l ≠ posInf
  upper_ne : ∀ u ∈ upper, u ≠ negInf

noncomputable def onLine (z d : Vec Extended) (t : Extended) : Vec Extended :=
  List.zipWith (· + ·) z (scale d t)

variable {x y z d lower upper : Vec Extended} {a l u : Extended}

theorem admitZero_nil : AdmitZero [] [] := ⟨List.forall_mem_nil _, List.forall_mem_nil _⟩

theorem admitZero_cons :
    AdmitZero (l :: lower) (u :: upper) ↔ (l ≤ 0 ∧ 0 ≤ u) ∧ AdmitZero lower upper := by
  constructor
  · intro h
    exact ⟨⟨h.lower_le l List.mem_cons_self, h.le_upper u List.mem_cons_self⟩,
      fun l' hl' ↦ h.lower_le l' (List.mem_cons_of_mem l hl'),
      fun u' hu' ↦ h.le_upper u' (List.mem_cons_of_mem u hu')⟩
  · rintro ⟨⟨hl, hu⟩, h⟩
    exact ⟨List.forall_mem_cons.mpr ⟨hl, h.lower_le⟩, List.forall_mem_cons.mpr ⟨hu, h.le_upper⟩⟩

theorem AdmitZero.admitPoint (h : AdmitZero lower upper) : AdmitPoint lower upper :=
  fun _ l u hl hu ↦
    ⟨0, h.lower_le l (List.mem_of_getElem? hl), h.le_upper u (List.mem_of_getElem? hu)⟩

theorem admitPoint_cons : AdmitPoint (l :: lower) (u :: upper) ↔
    (∃ r : ℝ, l ≤ real r ∧ real r ≤ u) ∧ AdmitPoint lower upper := by
  constructor
  · intro h
    exact ⟨h 0 l u rfl rfl, fun i m v hm hv ↦ h (i + 1) m v hm hv⟩
  · rintro ⟨hhead, htail⟩ i m v hm hv
    cases i with
    | zero =>
      cases hm
      cases hv
      exact hhead
    | succ i => exact htail i m v hm hv

theorem AdmitZero.admitReals (h : AdmitZero lower upper) : AdmitReals lower upper := by
  refine ⟨fun l hl hinf ↦ ?_, fun u hu hinf ↦ ?_⟩
  · have hle := h.lower_le l hl
    rw [hinf] at hle
    exact hle
  · have hle := h.le_upper u hu
    rw [hinf] at hle
    exact hle

@[simp] theorem onLine_cons (v t : Extended) :
    onLine (a :: z) (v :: d) t = (a + v * t) :: onLine z d t := rfl

theorem fits_nil : Fits [] lower upper := by
  intro i a l u ha
  rw [List.getElem?_nil] at ha
  cases ha

theorem fits_cons :
    Fits (a :: x) (l :: lower) (u :: upper) ↔ (l ≤ a ∧ a ≤ u) ∧ Fits x lower upper := by
  constructor
  · intro h
    exact ⟨h 0 a l u rfl rfl rfl, fun i b m v hb hm hv ↦ h (i + 1) b m v hb hm hv⟩
  · rintro ⟨hhead, htail⟩ i b m v hb hm hv
    cases i with
    | zero =>
      cases hb
      cases hm
      cases hv
      exact hhead
    | succ i => exact htail i b m v hb hm hv

/-- The test for a box checks the entries that have both bounds. -/
theorem inBox_iff : inBox x lower upper = true ↔ Fits x lower upper := by
  rw [inBox, List.all_eq_true]
  constructor
  · intro h i a l u ha hl hu
    have hmem : (a, l, u) ∈ List.zip x (List.zip lower upper) := by
      refine List.mem_of_getElem? (i := i) ?_
      rw [List.getElem?_zip_eq_some]
      exact ⟨ha, List.getElem?_zip_eq_some.mpr ⟨hl, hu⟩⟩
    exact of_decide_eq_true (h (a, l, u) hmem)
  · rintro h ⟨a, l, u⟩ hmem
    obtain ⟨i, hi⟩ := List.mem_iff_getElem?.mp hmem
    rw [List.getElem?_zip_eq_some, List.getElem?_zip_eq_some] at hi
    exact decide_eq_true (h i a l u hi.1 hi.2.1 hi.2.2)

theorem fits_of_eq_zero (h : AdmitZero lower upper) (hx : ∀ a ∈ x, a = 0) :
    Fits x lower upper := by
  intro i a l u ha hl hu
  rw [hx a (List.mem_of_getElem? ha)]
  exact ⟨h.lower_le l (List.mem_of_getElem? hl), h.le_upper u (List.mem_of_getElem? hu)⟩

theorem fits_zeros (h : AdmitZero lower upper) (n : ℕ) : Fits (zeros n) lower upper :=
  fits_of_eq_zero h fun _ ha ↦ List.eq_of_mem_replicate ha

theorem Fits.take (h : Fits x lower upper) (n : ℕ) : Fits (x.take n) lower upper := by
  intro i a l u ha hl hu
  rw [List.getElem?_take] at ha
  split at ha
  · exact h i a l u ha hl hu
  · cases ha

theorem IsReal.onLine (hz : IsReal z) (hd : IsReal d) {t : Extended} (ht : t.IsReal) :
    IsReal (onLine z d t) :=
  hz.zipWith (hd.scale ht) fun _ _ ha hb ↦ ha.add hb

theorem yields_onLine (z d : Vec Extended) (t : Extended) :
    Yields (fun x ↦ x = onLine z d t) (add z (scale d t)) := by
  rw [add, combine]
  split
  · exact Ensures.ok rfl
  · exact Ensures.error (by decide)

theorem onLine_zero (hz : IsReal z) (hd : IsReal d) :
    onLine z d 0 = z.take d.length := by
  induction z generalizing d with
  | nil => rw [onLine, List.zipWith_nil_left, List.take_nil]
  | cons a z ih =>
    obtain _ | ⟨v, d⟩ := d
    · rfl
    · rw [isReal_cons] at hz hd
      obtain ⟨⟨x, rfl⟩, hz⟩ := hz
      obtain ⟨⟨v, rfl⟩, hd⟩ := hd
      rw [onLine_cons, ih hz hd, zero_eq, real_mul, real_add, mul_zero, add_zero]
      rfl

theorem onLine_start (hz : IsReal z) (hd : IsReal d) (h : z.length = d.length) :
    onLine z d (real 0) = z := by
  rw [← zero_eq, onLine_zero hz hd, List.take_of_length_le h.le]

end Vec

namespace Segment

variable {z d lower upper : Vec Extended}

theorem mem_slab_of_not_lt {l u : Extended} {x r : ℝ} (hl : l ≤ real r) (hu : real r ≤ u)
    (hxl : ¬real x < l) (hux : ¬u < real x) : l ≤ real x ∧ real x ≤ u := by
  constructor
  · rcases le_real_iff.mp hl with rfl | ⟨y, -, rfl⟩
    · exact negInf_le_real x
    · exact real_le.mpr (not_lt.mp hxl)
  · rcases real_le_iff.mp hu with rfl | ⟨y, -, rfl⟩
    · exact real_le_posInf x
    · exact real_le.mpr (not_lt.mp hux)

/-- A line that crosses a slab is in the slab on the narrowed segment. The two quotients are the
ends of the slab, and which of them is the first depends on the sign of the direction. -/
theorem mem_slab_of_narrowed {a b l u : Extended} {x v t r : ℝ} (hl : l ≤ real r) (hu : real r ≤ u)
    (hv : v ≠ 0)
    (hat : Scalar.maxNum a (Scalar.minNum ((l - real x) / real v) ((u - real x) / real v)) ≤ real t)
    (htb : real t ≤
      Scalar.minNum b (Scalar.maxNum ((l - real x) / real v) ((u - real x) / real v))) :
    l ≤ real (x + v * t) ∧ real (x + v * t) ≤ u := by
  have hnan : (l - real x) / real v ≠ nan := slope_ne_nan (ne_nan_of_le hl).1 hv
  exact (line_mem_slab_iff hl hu hv).mp ⟨le_of_maxNum_le_right (minNum_ne_nan hnan) hat,
    le_of_le_minNum_right (maxNum_ne_nan hnan) htb⟩

/-- A narrowed segment is part of the given one, and its points are in all the slabs. -/
theorem yields_slabs (hz : Vec.IsReal z) (hd : Vec.IsReal d) (h : Vec.AdmitPoint lower upper)
    {a b : Extended} (ha : a ≠ nan) (hb : b ≠ nan) :
    Yields (fun r ↦ ∀ first last, r = some (first, last) → first ≠ nan ∧ last ≠ nan
      ∧ ∀ t : ℝ, first ≤ real t → real t ≤ last →
        (a ≤ real t ∧ real t ≤ b) ∧ Vec.Fits (Vec.onLine z d (real t)) lower upper)
      (slabs z d lower upper (a, b)) := by
  induction z generalizing d lower upper a b with
  | nil =>
    rw [slabs]
    refine Ensures.ok ?_
    rintro first last ⟨⟩
    exact ⟨ha, hb, fun t h₁ h₂ ↦ ⟨⟨h₁, h₂⟩, Vec.fits_nil⟩⟩
  | cons x z ih =>
    obtain _ | ⟨v, d⟩ := d
    · exact Ensures.error (by decide)
    obtain _ | ⟨l, lower⟩ := lower
    · exact Ensures.error (by decide)
    rw [Vec.isReal_cons] at hz hd
    obtain ⟨⟨x, rfl⟩, hz⟩ := hz
    obtain ⟨⟨v, rfl⟩, hd⟩ := hd
    rw [slabs.eq_def]
    dsimp only
    split
    · exact Ensures.ok (by rintro first last ⟨⟩)
    next hxl =>
      obtain _ | ⟨u, upper⟩ := upper
      · exact Ensures.error (by decide)
      obtain ⟨⟨r, hl, hu⟩, htail⟩ := Vec.admitPoint_cons.mp h
      dsimp only
      split
      next hv =>
        split
        -- The direction is zero here: the segment stays as it is, and its points do not move along
        -- this coordinate.
        · exact Ensures.ok (by rintro first last ⟨⟩)
        next hux =>
          refine (ih hz hd htail ha hb).mono fun r hr first last hsome ↦ ?_
          obtain ⟨hfirst, hlast, hmem⟩ := hr first last hsome
          refine ⟨hfirst, hlast, fun t h₁ h₂ ↦ ⟨(hmem t h₁ h₂).1, ?_⟩⟩
          rw [Vec.onLine_cons, real_beq.mp hv, real_mul, real_add, zero_mul, add_zero]
          exact Vec.fits_cons.mpr
            ⟨mem_slab_of_not_lt hl hu (fun hlt ↦ hxl ⟨hv, hlt⟩) hux, (hmem t h₁ h₂).2⟩
      next hv =>
        have hv0 : v ≠ 0 := fun h0 ↦ hv (real_beq.mpr h0)
        refine (ih hz hd htail (maxNum_ne_nan ha) (minNum_ne_nan hb)).mono
          fun r hr first last hsome ↦ ?_
        obtain ⟨hfirst, hlast, hmem⟩ := hr first last hsome
        refine ⟨hfirst, hlast, fun t h₁ h₂ ↦ ?_⟩
        obtain ⟨⟨hat, htb⟩, hfits⟩ := hmem t h₁ h₂
        refine ⟨⟨le_of_maxNum_le ha hat, le_of_le_minNum hb htb⟩, ?_⟩
        rw [Vec.onLine_cons, real_mul, real_add]
        exact Vec.fits_cons.mpr ⟨mem_slab_of_narrowed hl hu hv0 hat htb, hfits⟩

/-- Narrowing a segment loses no point that is in all the slabs. -/
theorem yields_slabs_complete (hz : Vec.IsReal z) (hd : Vec.IsReal d)
    (h : Vec.AdmitPoint lower upper) (hlength : lower.length = upper.length) {a b : Extended}
    {t : ℝ}
    (ha : a ≤ real t) (hb : real t ≤ b)
    (hfits : Vec.Fits (Vec.onLine z d (real t)) lower upper) :
    Yields (fun r ↦ ∃ first last, r = some (first, last) ∧ first ≤ real t ∧ real t ≤ last)
      (slabs z d lower upper (a, b)) := by
  induction z generalizing d lower upper a b with
  | nil => exact Ensures.ok ⟨a, b, rfl, ha, hb⟩
  | cons x z ih =>
    obtain _ | ⟨v, d⟩ := d
    · exact Ensures.error (by decide)
    obtain _ | ⟨l, lower⟩ := lower
    · exact Ensures.error (by decide)
    rw [Vec.isReal_cons] at hz hd
    obtain ⟨⟨x, rfl⟩, hz⟩ := hz
    obtain ⟨⟨v, rfl⟩, hd⟩ := hd
    rw [slabs.eq_def]
    dsimp only
    obtain _ | ⟨u, upper⟩ := upper
    · cases hlength
    obtain ⟨⟨r, hl, hu⟩, htail⟩ := Vec.admitPoint_cons.mp h
    have hrest := Nat.succ.inj hlength
    rw [Vec.onLine_cons, real_mul, real_add, Vec.fits_cons] at hfits
    obtain ⟨⟨hlt, htu⟩, hfits⟩ := hfits
    by_cases hv : v = 0
    · -- The point does not move along this coordinate.
      have hbeq : (real v == (0 : Extended)) = true := real_beq.mpr hv
      rw [hv, zero_mul, add_zero] at hlt htu
      rw [if_neg fun hxl ↦ not_lt_of_le hlt hxl.2]
      dsimp only
      rw [if_pos hbeq, if_neg (not_lt_of_le htu)]
      exact ih hz hd htail hrest ha hb hfits
    · have hbeq : ¬(real v == (0 : Extended)) = true := fun h0 ↦ hv (real_beq.mp h0)
      obtain ⟨hfirst, hlast⟩ := (line_mem_slab_iff hl hu hv).mpr ⟨hlt, htu⟩
      rw [if_neg fun hxl ↦ hbeq hxl.1]
      dsimp only
      rw [if_neg hbeq]
      exact ih hz hd htail hrest (maxNum_le ha hfirst) (le_minNum hb hlast) hfits

/-- The restriction of a segment is part of it, and lies between zero and one if only that part of
the line is searched. -/
theorem clip_eq_some {a b first last : Extended} {entire : Bool} (ha : a ≠ nan) (hb : b ≠ nan)
    (h : clip a b entire = some (first, last)) :
    (first ≠ nan ∧ last ≠ nan) ∧ ∀ t : Extended, first ≤ t → t ≤ last →
      (a ≤ t ∧ t ≤ b) ∧ (entire = false → 0 ≤ t ∧ t ≤ 1) := by
  rw [clip] at h
  split at h
  next hentire =>
    obtain ⟨rfl, rfl⟩ := h
    exact ⟨⟨ha, hb⟩, fun t h₁ h₂ ↦ ⟨⟨h₁, h₂⟩, fun hfalse ↦ absurd hentire (by simp [hfalse])⟩⟩
  · split at h
    · cases h
    · obtain ⟨rfl, rfl⟩ := h
      refine ⟨⟨maxNum_ne_nan ha, minNum_ne_nan hb⟩, fun t h₁ h₂ ↦
        ⟨⟨le_of_maxNum_le ha h₁, le_of_le_minNum hb h₂⟩,
          fun _ ↦ ⟨le_of_maxNum_le_right nofun h₁, le_of_le_minNum_right nofun h₂⟩⟩⟩

/-- The end of a segment between zero and one is a real number, even if the line does not meet the
box in real numbers. -/
theorem isReal_of_clip_eq_some {a b first last : Extended}
    (h : clip a b false = some (first, last)) : last.IsReal := by
  rw [clip, if_neg Bool.false_ne_true] at h
  split at h
  next => cases h
  next hmeets =>
    obtain ⟨rfl, rfl⟩ := h
    cases b with
    | real x => exact isReal_real _
    | posInf | nan => exact isReal_one
    | negInf => exact (hmeets (.inl (negInf_lt_real 0))).elim

/-! ### Sets of parameters -/

/-- What a search finds is the segment of all parameters of a set, of which there are none if it
finds nothing. The ends may be infinite. -/
def Describes : Option (Extended × Extended) → Set ℝ → Prop
  | none, S => S = ∅
  | some (first, last), S =>
    (first ≠ nan ∧ last ≠ nan) ∧ ∀ t : ℝ, t ∈ S ↔ first ≤ real t ∧ real t ≤ last

/-- What a search finds is a segment of parameters between two real numbers, or nothing if the set
is empty. -/
def Spans : Option (Extended × Extended) → Set ℝ → Prop
  | none, S => S = ∅
  | some (first, last), S =>
    ∃ a b : ℝ, a ≤ b ∧ first = real a ∧ last = real b ∧ S = Set.Icc a b

section Sets

variable {a b s t : Extended} {S T : Set ℝ}

theorem describes_none_of_lt (h : Describes (some (a, b)) S) (hlt : b < a) : Describes none S :=
  Set.eq_empty_of_forall_notMem fun t ht ↦
    have hmem := (h.2 t).mp ht
    not_lt_of_le (le_trans hmem.1 hmem.2) hlt

theorem Describes.clip (h : Describes (some (a, b)) S) (entire : Bool) :
    Describes (clip a b entire) {t | (entire = false → 0 ≤ t ∧ t ≤ 1) ∧ t ∈ S} := by
  obtain ⟨⟨ha, hb⟩, hmem⟩ := h
  cases entire with
  | true => exact ⟨⟨ha, hb⟩, fun t ↦ (and_iff_right nofun).trans (hmem t)⟩
  | false =>
    rw [Segment.clip, if_neg Bool.false_ne_true]
    split
    next houtside =>
      refine Set.eq_empty_of_forall_notMem fun t ht ↦ ?_
      obtain ⟨hunit, ht⟩ := ht
      obtain ⟨h₀, h₁⟩ := hunit rfl
      obtain ⟨hat, htb⟩ := (hmem t).mp ht
      rcases houtside with hlt | hlt
      · exact not_lt_of_le (le_trans (real_le.mpr h₀) htb) hlt
      · exact not_lt_of_le (le_trans hat (real_le.mpr h₁)) hlt
    next =>
      refine ⟨⟨maxNum_ne_nan ha, minNum_ne_nan hb⟩, fun t ↦ ?_⟩
      simp only [zero_eq, one_eq, maxNum_le_iff ha (real_ne_nan 0),
        le_minNum_iff hb (real_ne_nan 1), Set.mem_ofPred_eq, hmem, real_le, forall_const]
      rw [and_comm, and_and_and_comm]

theorem Describes.inter (h : Describes (some (a, b)) S) (h' : Describes (some (s, t)) T) :
    Describes (if Scalar.maxNum a s ≤ Scalar.minNum b t
      then some (Scalar.maxNum a s, Scalar.minNum b t) else none) (S ∩ T) := by
  obtain ⟨⟨ha, hb⟩, hS⟩ := h
  obtain ⟨⟨hs, ht⟩, hT⟩ := h'
  have hmem : ∀ r : ℝ, r ∈ S ∩ T ↔
      Scalar.maxNum a s ≤ real r ∧ real r ≤ Scalar.minNum b t := fun r ↦ by
    rw [maxNum_le_iff ha hs, le_minNum_iff hb ht, Set.mem_inter_iff, hS, hT, and_and_and_comm]
  split
  · exact ⟨⟨maxNum_ne_nan ha, minNum_ne_nan hb⟩, hmem⟩
  next hnot =>
    exact Set.eq_empty_of_forall_notMem fun r hr ↦
      hnot (le_trans ((hmem r).mp hr).1 ((hmem r).mp hr).2)

theorem Spans.describes {r : Option (Extended × Extended)} (h : Spans r S) : Describes r S := by
  obtain _ | ⟨first, last⟩ := r
  · exact h
  · obtain ⟨x, y, -, rfl, rfl, rfl⟩ := h
    exact ⟨⟨real_ne_nan x, real_ne_nan y⟩, fun _ ↦ Iff.rfl⟩

theorem Describes.inter_spans (h : Describes (some (a, b)) S) (h' : Spans (some (s, t)) T) :
    Spans (if Scalar.maxNum a s ≤ Scalar.minNum b t
      then some (Scalar.maxNum a s, Scalar.minNum b t) else none) (S ∩ T) := by
  have hinter := h.inter h'.describes
  obtain ⟨x, y, -, rfl, rfl, -⟩ := h'
  split at hinter
  next hle =>
    -- Both ends are between the real ends of the second segment.
    obtain ⟨hx, hy⟩ : real x ≤ Scalar.maxNum a (real x) ∧ Scalar.minNum b (real y) ≤ real y :=
      ⟨le_of_maxNum_le_right (real_ne_nan x) (le_refl (ne_nan_of_le hle).1),
        le_of_le_minNum_right (real_ne_nan y) (le_refl (ne_nan_of_le hle).2)⟩
    obtain ⟨c, hc⟩ := isReal_of_le_of_le hx (le_trans hle hy)
    obtain ⟨e, he⟩ := isReal_of_le_of_le (le_trans hx hle) hy
    rw [if_pos hle]
    rw [hc, he] at hle hinter ⊢
    exact ⟨c, e, real_le.mp hle, rfl, rfl, Set.ext hinter.2⟩
  next hnot =>
    rw [if_neg hnot]
    exact hinter

theorem spans_clip {x y : ℝ} (hxy : x ≤ y) (entire : Bool) :
    Spans (clip (real x) (real y) entire)
      {t | (entire = false → 0 ≤ t ∧ t ≤ 1) ∧ t ∈ Set.Icc x y} := by
  cases entire with
  | true => exact ⟨x, y, hxy, rfl, rfl, Set.ext fun t ↦ and_iff_right nofun⟩
  | false =>
    rw [Segment.clip, if_neg Bool.false_ne_true]
    simp only [zero_eq, one_eq, real_lt, maxNum_real, minNum_real, forall_const]
    split
    next houtside =>
      refine Set.eq_empty_of_forall_notMem fun t ht ↦ ?_
      obtain ⟨⟨h₀, h₁⟩, hxt, hty⟩ := ht
      rcases houtside with hlt | hlt <;> linarith
    next hmeets =>
      rw [not_or, not_lt, not_lt] at hmeets
      refine ⟨max x 0, min y 1, ?_, rfl, rfl, Set.ext fun t ↦ ?_⟩
      · exact max_le (le_min hxy hmeets.2) (le_min hmeets.1 zero_le_one)
      · rw [Set.mem_ofPred_eq, Set.mem_Icc, Set.mem_Icc, max_le_iff, le_min_iff, and_comm,
          and_and_and_comm]

end Sets

theorem yields_slabs_describes (hz : Vec.IsReal z) (hd : Vec.IsReal d)
    (h : Vec.AdmitPoint lower upper) (hlength : lower.length = upper.length) {a b : Extended}
    (ha : a ≠ nan) (hb : b ≠ nan) :
    Yields (fun r ↦ Describes r {t | (a ≤ real t ∧ real t ≤ b)
        ∧ Vec.Fits (Vec.onLine z d (real t)) lower upper})
      (slabs z d lower upper (a, b)) := by
  refine (yields_slabs hz hd h ha hb).mono_eq fun r hr hsound ↦ ?_
  have hcomplete : ∀ t : ℝ, (a ≤ real t ∧ real t ≤ b)
      ∧ Vec.Fits (Vec.onLine z d (real t)) lower upper →
      ∃ first last, r = some (first, last) ∧ first ≤ real t ∧ real t ≤ last :=
    fun t ht ↦ (yields_slabs_complete hz hd h hlength ht.1.1 ht.1.2 ht.2).of_eq_ok hr
  obtain _ | ⟨first, last⟩ := r
  · refine Set.eq_empty_of_forall_notMem fun t ht ↦ ?_
    obtain ⟨_, _, hnone, -⟩ := hcomplete t ht
    cases hnone
  · obtain ⟨hfirst, hlast, hmem⟩ := hsound first last rfl
    refine ⟨⟨hfirst, hlast⟩, fun t ↦ ⟨fun ht ↦ ?_, fun ht ↦ hmem t ht.1 ht.2⟩⟩
    obtain ⟨_, _, hsome, hbetween⟩ := hcomplete t ht
    cases hsome
    exact hbetween

/-- A search in a box describes the parameters at which the line is in the box, if the direction is
not zero. -/
theorem yields_inBox_describes (hz : Vec.IsReal z) (hd : Vec.IsReal d)
    (h : Vec.AdmitPoint lower upper) (hlength : lower.length = upper.length)
    (hmoves : ¬(Vec.norm d == (0 : Extended)) = true) (entire : Bool) :
    Yields (fun r ↦ Describes r {t | (entire = false → 0 ≤ t ∧ t ≤ 1)
        ∧ Vec.Fits (Vec.onLine z d (real t)) lower upper})
      (inBox z d lower upper entire) := by
  rw [inBox, if_neg hmoves]
  refine (yields_slabs_describes hz hd h hlength (a := -Scalar.infinity) (b := Scalar.infinity)
    nofun nofun).bind fun r hr ↦ ?_
  have hline : {t : ℝ | ((-Scalar.infinity : Extended) ≤ real t ∧ real t ≤ Scalar.infinity)
      ∧ Vec.Fits (Vec.onLine z d (real t)) lower upper} =
      {t | Vec.Fits (Vec.onLine z d (real t)) lower upper} :=
    Set.ext fun t ↦ and_iff_right ⟨negInf_le_real t, real_le_posInf t⟩
  rw [hline] at hr
  obtain _ | ⟨a, b⟩ := r
  · refine Ensures.pure (Set.eq_empty_of_forall_notMem fun t ht ↦ ?_)
    exact Set.eq_empty_iff_forall_notMem.mp hr t ht.2
  · refine Ensures.pure ?_
    split
    next hlt =>
      exact Set.eq_empty_of_forall_notMem fun t ht ↦
        Set.eq_empty_iff_forall_notMem.mp (describes_none_of_lt hr hlt) t ht.2
    next => exact hr.clip entire

theorem yields_inBox (hz : Vec.IsReal z) (hd : Vec.IsReal d) (h : Vec.AdmitZero lower upper)
    (entire : Bool) :
    Yields (fun r ↦ ∀ first last, r = some (first, last) → (first ≠ nan ∧ last ≠ nan)
      ∧ (∀ t, first ≤ t → t ≤ last → entire = false → 0 ≤ t ∧ t ≤ 1)
      ∧ ∀ t : ℝ, first ≤ real t → real t ≤ last → Vec.Fits (Vec.onLine z d (real t)) lower upper)
      (inBox z d lower upper entire) := by
  rw [inBox]
  split
  · exact Ensures.pure (by rintro first last ⟨⟩)
  · refine (yields_slabs hz hd h.admitPoint (a := -Scalar.infinity) (b := Scalar.infinity) nofun
      nofun).bind fun r hr ↦ ?_
    obtain _ | ⟨a, b⟩ := r
    · exact Ensures.pure (by rintro first last ⟨⟩)
    · obtain ⟨ha, hb, hmem⟩ := hr a b rfl
      refine Ensures.pure fun first last hsome ↦ ?_
      split at hsome
      · cases hsome
      · obtain ⟨hnan, hclip⟩ := clip_eq_some ha hb hsome
        refine ⟨hnan, fun t h₁ h₂ ↦ (hclip t h₁ h₂).2, fun t h₁ h₂ ↦ ?_⟩
        obtain ⟨⟨hat, htb⟩, -⟩ := hclip (real t) h₁ h₂
        exact (hmem t hat htb).2

theorem yields_inBall (hz : Vec.IsReal z) (hd : Vec.IsReal d) (radius : Extended) (entire : Bool) :
    Yields (fun _ ↦ True) (inBall z d radius entire) := by
  rw [inBall]
  split
  · exact Ensures.pure trivial
  · split
    · exact Ensures.pure trivial
    · refine (Vec.yields_dot hd hd).bind fun _ _ ↦ (Vec.yields_dot hz hd).bind fun _ _ ↦
        (Vec.yields_dot hz hz).bind fun _ _ ↦ ?_
      dsimp only
      split <;> exact Ensures.pure trivial

/-! ### Arbitrary bounds -/

theorem yields_slabs_true (z d lower upper : Vec Extended) (segment : Extended × Extended) :
    Yields (fun _ ↦ True) (slabs z d lower upper segment) := by
  induction z generalizing d lower upper segment with
  | nil => exact Ensures.ok trivial
  | cons x z ih =>
    obtain _ | ⟨v, d⟩ := d
    · exact Ensures.error (by decide)
    obtain _ | ⟨l, lower⟩ := lower
    · exact Ensures.error (by decide)
    rw [slabs.eq_def]
    dsimp only
    split
    · exact Ensures.ok trivial
    obtain _ | ⟨u, upper⟩ := upper
    · exact Ensures.error (by decide)
    dsimp only
    split
    · split
      · exact Ensures.ok trivial
      · exact ih d lower upper segment
    · exact ih d lower upper _

theorem yields_inBox_last (z d lower upper : Vec Extended) (entire : Bool) :
    Yields (fun r ↦ entire = false → ∀ first last, r = some (first, last) → last.IsReal)
      (inBox z d lower upper entire) := by
  rw [inBox]
  split
  · exact Ensures.pure nofun
  refine (yields_slabs_true z d lower upper _).bind fun r _ ↦ ?_
  obtain _ | ⟨a, b⟩ := r
  · exact Ensures.pure nofun
  · refine Ensures.pure ?_
    rintro rfl first last hsome
    split at hsome
    · cases hsome
    · exact isReal_of_clip_eq_some hsome

theorem yields_inBall_last (hz : Vec.IsReal z) (hd : Vec.IsReal d) (radius : Extended)
    (entire : Bool) :
    Yields (fun r ↦ entire = false → ∀ first last, r = some (first, last) →
        last.IsReal ∨ last = posInf)
      (inBall z d radius entire) := by
  rw [inBall]
  split
  · exact Ensures.pure nofun
  split
  · refine Ensures.pure ?_
    rintro - first last ⟨⟩
    exact .inr rfl
  refine (Vec.yields_dot hd hd).bind fun _ _ ↦ (Vec.yields_dot hz hd).bind fun _ _ ↦
    (Vec.yields_dot hz hz).bind fun _ _ ↦ ?_
  dsimp only
  split
  · exact Ensures.pure nofun
  · refine Ensures.pure ?_
    rintro rfl first last hsome
    split at hsome <;> exact .inl (isReal_of_clip_eq_some hsome)

/-- The end of the part between zero and one is a real number, whatever the bounds and the radius
are. -/
theorem yields_inBoxAndBall_last (hz : Vec.IsReal z) (hd : Vec.IsReal d)
    (lower upper : Vec Extended) (radius : Extended) (entire : Bool) :
    Yields (fun r ↦ entire = false → ∀ first last, r = some (first, last) → last.IsReal)
      (inBoxAndBall z d lower upper radius entire) := by
  rw [inBoxAndBall]
  refine (yields_inBox_last z d lower upper entire).bind fun r hr ↦ ?_
  obtain _ | ⟨a, b⟩ := r
  · exact Ensures.pure nofun
  refine (yields_inBall_last hz hd radius entire).bind fun q hq ↦ ?_
  obtain _ | ⟨s, t⟩ := q
  · exact Ensures.pure nofun
  refine Ensures.pure fun hentire first last hsome ↦ ?_
  split at hsome
  · obtain ⟨rfl, rfl⟩ := hsome
    obtain ⟨x, rfl⟩ := hr hentire a b rfl
    rcases hq hentire s t rfl with ⟨y, rfl⟩ | rfl
    · exact isReal_real _
    · exact isReal_real x
  · cases hsome

/-! ### Bounds that admit the origin -/

/-- The last point of the segment in a box and a ball is in the box, and it exists and is between
zero and one if only that part of the line is searched. -/
theorem yields_inBoxAndBall (hz : Vec.IsReal z) (hd : Vec.IsReal d)
    (h : Vec.AdmitZero lower upper) (radius : Extended) (entire : Bool) :
    Yields (fun r ↦ ∀ first last, r = some (first, last) →
      (∀ t : ℝ, last = real t → Vec.Fits (Vec.onLine z d (real t)) lower upper)
        ∧ (entire = false → ∃ t : ℝ, last = real t ∧ 0 ≤ t ∧ t ≤ 1))
      (inBoxAndBall z d lower upper radius entire) := by
  rw [inBoxAndBall]
  refine (yields_inBox hz hd h entire).bind fun r hr ↦ ?_
  obtain _ | ⟨a, b⟩ := r
  · exact Ensures.pure (by rintro first last ⟨⟩)
  · obtain ⟨⟨ha, hb⟩, hunit, hmem⟩ := hr a b rfl
    refine (yields_inBall hz hd radius entire).bind fun q _ ↦ ?_
    obtain _ | ⟨s, t⟩ := q
    · exact Ensures.pure (by rintro first last ⟨⟩)
    · refine Ensures.pure fun first last hsome ↦ ?_
      split at hsome
      next hle =>
        obtain ⟨rfl, rfl⟩ := hsome
        -- Only the last point counts: it is on the segment in the box, since it is not before the
        -- first.
        have hlast : Scalar.minNum b t ≤ b := le_of_le_minNum hb (le_refl (ne_nan_of_le hle).2)
        have hfirst : a ≤ Scalar.minNum b t := le_of_maxNum_le ha hle
        refine ⟨fun t' ht' ↦ ?_, fun hentire ↦ ?_⟩
        · rw [ht'] at hfirst hlast
          exact hmem t' hfirst hlast
        · obtain ⟨hzero, hone⟩ := hunit _ hfirst hlast hentire
          obtain ⟨t', ht'⟩ := isReal_of_le_of_le hzero hone
          rw [ht'] at hzero hone ⊢
          exact ⟨t', rfl, hzero, hone⟩
      · cases hsome

end Segment

end LogBarrier
