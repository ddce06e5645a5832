import LogBarrier.Proofs.Exact.Coordinates
import LogBarrier.Proofs.TrustRegion.Segment

/-!
# Points of a line in a ball

The squared norm along a line is a quadratic polynomial in the parameter. A search returns the
segment between the two roots at which the line leaves the ball, so every point of the segment is in
the ball.

## The vanishing denominator

One root is a quotient whose denominator is zero if the line touches the ball in its starting point
and nowhere else. This root is then not a number. A search over the part between zero and one drops
it and returns the starting point. A search over the entire line would let it pass, but it never
starts on the sphere.

## Clipping

Moving a point into a box brings it closer to every point of the box, in each coordinate.
-/

namespace LogBarrier

open Extended

namespace Extended

/-- Moving a number between two bounds brings it closer to everything between them. -/
theorem exists_clamped {l u : Extended} {r : ℝ} (hl : l ≤ real r) (hu : real r ≤ u) (x : ℝ) :
    ∃ y, Scalar.minNum (Scalar.maxNum (real x) l) u = real y ∧ |y - r| ≤ |x - r| := by
  obtain ⟨y, hy, hyx⟩ : ∃ y, Scalar.maxNum (real x) l = real y ∧ |y - r| ≤ |x - r| := by
    rcases le_real_iff.mp hl with rfl | ⟨b, hb, rfl⟩
    · exact ⟨x, rfl, le_rfl⟩
    · refine ⟨max x b, maxNum_real x b, ?_⟩
      conv_lhs => rw [← max_eq_left hb]
      exact abs_max_sub_max_le_abs x r b
  rw [hy]
  rcases real_le_iff.mp hu with rfl | ⟨b, hb, rfl⟩
  · exact ⟨y, rfl, hyx⟩
  · refine ⟨min y b, minNum_real y b, hyx.trans' ?_⟩
    have h := abs_min_sub_min_le_max y b r b
    rwa [min_eq_left hb, sub_self, abs_zero, max_eq_left (abs_nonneg _)] at h

end Extended

namespace Vec

variable {x z d lower upper : Vec Extended}

theorem yields_dot_eq (x y : Vec Extended) :
    Yields (fun c ↦ c = dotSum x y ∧ x.length = y.length) (dot x y) := by
  rw [dot]
  split
  next h => exact Ensures.ok ⟨rfl, h⟩
  · exact Ensures.error (by decide)

theorem exists_ofCoords {y : Vec Extended} (hx : IsReal x) (hy : IsReal y)
    (h : x.length = y.length) : ∃ n f g, x = ofCoords n f ∧ y = ofCoords n g :=
  ⟨x.length, x.coord, y.coord, (ofCoords_coord hx).symm,
    (ofCoords_coord_of_length hy h.symm).symm⟩

theorem onLine_ofCoords (n : ℕ) (f g : ℕ → ℝ) (t : ℝ) :
    onLine (ofCoords n f) (ofCoords n g) (real t) = ofCoords n fun i ↦ f i + g i * t := by
  rw [onLine, scale_ofCoords]
  exact zipWith_ofCoords (· + ·) (fun _ _ ↦ rfl) n f fun i ↦ g i * t

theorem sumSq_onLine (n : ℕ) (f g : ℕ → ℝ) (t : ℝ) :
    sumSq (onLine (ofCoords n f) (ofCoords n g) (real t)) =
      (∑ i ∈ Finset.range n, g i * g i) * t ^ 2 + 2 * (∑ i ∈ Finset.range n, f i * g i) * t
        + ∑ i ∈ Finset.range n, f i * f i := by
  rw [onLine_ofCoords, sumSq_ofCoords, Finset.sum_mul, Finset.mul_sum, Finset.sum_mul,
    ← Finset.sum_add_distrib, ← Finset.sum_add_distrib]
  exact Finset.sum_congr rfl fun i _ ↦ by ring

theorem clamp_eq_ok {y : Vec Extended} (h : clamp x lower upper = .ok y) :
    y.length = x.length ∧ ∀ (i : ℕ) (a : Extended), y[i]? = some a → ∃ b l u, x[i]? = some b
      ∧ lower[i]? = some l ∧ upper[i]? = some u ∧ a = Scalar.minNum (Scalar.maxNum b l) u := by
  rw [clamp, takeExactly] at h
  split at h
  next hle =>
    obtain rfl := Except.ok.inj h
    refine ⟨List.length_take_of_le hle, fun i a ha ↦ ?_⟩
    rw [List.take_of_length_le (by simp), List.getElem?_map, Option.map_eq_some_iff] at ha
    obtain ⟨⟨b, l, u⟩, hblu, rfl⟩ := ha
    rw [List.getElem?_zip_eq_some, List.getElem?_zip_eq_some] at hblu
    exact ⟨b, l, u, hblu.1, hblu.2.1, hblu.2.2, rfl⟩
  · cases h

/-- A clipped vector is at least as close to every vector in the box, in each coordinate. -/
theorem yields_clamp_closer {w : Vec Extended} (hx : IsReal x) (hw : IsReal w)
    (hlength : x.length = w.length) (hfits : Fits w lower upper) :
    Yields (fun y ↦ IsReal y ∧ y.length = x.length
        ∧ ∀ i < x.length, |coord y i - coord w i| ≤ |coord x i - coord w i|)
      (clamp x lower upper) := by
  have hdefined : Yields (fun _ ↦ True) (clamp x lower upper) := by
    rw [clamp, takeExactly]
    split
    · exact Ensures.ok trivial
    · exact Ensures.error (by decide)
  refine hdefined.mono_eq fun y hy _ ↦ ?_
  obtain ⟨hlengthY, hentries⟩ := clamp_eq_ok hy
  have hentry : ∀ (i : ℕ) (a : Extended), y[i]? = some a →
      ∃ r, a = real r ∧ |r - coord w i| ≤ |coord x i - coord w i| := by
    intro i a ha
    obtain ⟨b, l, u, hb, hl, hu, rfl⟩ := hentries i a ha
    obtain ⟨hi, -⟩ := List.getElem?_eq_some_iff.mp hb
    have hwi := List.getElem?_eq_getElem (hlength ▸ hi)
    obtain ⟨s, rfl⟩ := hx b (List.mem_of_getElem? hb)
    obtain ⟨r, hr⟩ := hw _ (List.mem_of_getElem? hwi)
    rw [hr] at hwi
    obtain ⟨hlr, hru⟩ := hfits i _ l u hwi hl hu
    rw [coord_of_getElem? hb, coord_of_getElem? hwi]
    exact exists_clamped hlr hru s
  refine ⟨fun a ha ↦ ?_, hlengthY, fun i hi ↦ ?_⟩
  · obtain ⟨i, hi⟩ := List.mem_iff_getElem?.mp ha
    obtain ⟨r, rfl, -⟩ := hentry i a hi
    exact isReal_real r
  · have hi' := List.getElem?_eq_getElem (hlengthY ▸ hi)
    obtain ⟨r, hr, hcloser⟩ := hentry i _ hi'
    rw [coord_of_getElem? hi', hr]
    exact hcloser

end Vec

namespace Segment

variable {z d lower upper : Vec Extended}

/-! ## Roots -/

section Roots

variable {a b c q t : ℝ}

/-- The two roots are found from one number, without a difference of numbers of equal sign. -/
theorem quadratic_eq_mul (ha : a ≠ 0) (hq : q ≠ 0) (h : (q - b) ^ 2 = b * b - 4 * a * c) (t : ℝ) :
    a * t ^ 2 + b * t + c = a * ((t - -q / (2 * a)) * (t - -2 * c / q)) := by
  have hsum : q ^ 2 = 2 * b * q - 4 * a * c := by linear_combination h
  field_simp
  linear_combination (-t) * hsum

theorem quadratic_nonpos_iff (ha : 0 < a) (hq : q ≠ 0) (h : (q - b) ^ 2 = b * b - 4 * a * c) :
    a * t ^ 2 + b * t + c ≤ 0 ↔
      t ∈ Set.Icc (min (-q / (2 * a)) (-2 * c / q)) (max (-q / (2 * a)) (-2 * c / q)) := by
  have hroots : (t - -q / (2 * a)) * (t - -2 * c / q) ≤ 0 ↔
      t ∈ Set.Icc (min (-q / (2 * a)) (-2 * c / q)) (max (-q / (2 * a)) (-2 * c / q)) := by
    rcases le_total (-q / (2 * a)) (-2 * c / q) with hle | hle
    · rw [min_eq_left hle, max_eq_right hle, sub_mul_sub_nonpos_iff t hle, Set.mem_Icc]
    · rw [min_eq_right hle, max_eq_left hle, mul_comm, sub_mul_sub_nonpos_iff t hle, Set.mem_Icc]
  rw [quadratic_eq_mul ha.ne' hq h, ← hroots]
  exact ⟨fun hle ↦ nonpos_of_mul_nonpos_right hle ha,
    fun hle ↦ mul_nonpos_of_nonneg_of_nonpos ha.le hle⟩

/-- The number from which the roots are found vanishes only with the last two coefficients. -/
theorem exists_root_number (ha : 0 < a) (hdisc : 0 ≤ b * b - 4 * a * c) :
    ∃ q, real b + Scalar.copySign (Scalar.sqrt (real (b * b - 4 * a * c))) (real b) = real q
      ∧ (q - b) ^ 2 = b * b - 4 * a * c ∧ (q = 0 → b = 0 ∧ c = 0) := by
  have hsq := Real.sq_sqrt hdisc
  have hroot := Real.sqrt_nonneg (b * b - 4 * a * c)
  rw [sqrt_real hdisc]
  set w := √(b * b - 4 * a * c)
  have hzero : b = 0 → w = 0 → b = 0 ∧ c = 0 := fun hb hw ↦ by
    rw [hb, hw] at hsq
    exact ⟨hb, by nlinarith⟩
  by_cases hb : b < 0
  · refine ⟨b + -|w|, congrArg (real b + ·) (if_pos hb), ?_, fun h ↦ hzero ?_ ?_⟩
    · rw [add_sub_cancel_left, neg_sq, sq_abs, hsq]
    all_goals rw [abs_of_nonneg hroot] at h; linarith
  · refine ⟨b + |w|, congrArg (real b + ·) (if_neg hb), ?_, fun h ↦ hzero ?_ ?_⟩
    · rw [add_sub_cancel_left, sq_abs, hsq]
    all_goals rw [abs_of_nonneg hroot] at h; linarith

end Roots

/-- A root that is not a number leaves the starting point. -/
theorem clip_nan : clip nan (real 0) false = some (real 0, real 0) := by
  have h : ¬(real 0 < (0 : Extended) ∨ (1 : Extended) < nan) := by
    rintro (h | h)
    · exact lt_irrefl (0 : ℝ) h
    · exact h
  rw [clip, if_neg Bool.false_ne_true, if_neg h]
  exact congrArg (fun t ↦ some (real 0, real t)) (min_eq_left zero_le_one)

/-- The restricted segment between the two roots consists of the parameters at which the polynomial
is not positive. -/
theorem spans_clip_roots {a b c q : ℝ} {entire : Bool} (ha : 0 < a)
    (h : (q - b) ^ 2 = b * b - 4 * a * c) (hzero : q = 0 → b = 0 ∧ c = 0)
    (hstart : entire = false ∨ q ≠ 0) :
    Spans (if real (-q) / real (2 * a) ≤ real (-2 * c) / real q
      then clip (real (-q) / real (2 * a)) (real (-2 * c) / real q) entire
      else clip (real (-2 * c) / real q) (real (-q) / real (2 * a)) entire)
      {t | (entire = false → 0 ≤ t ∧ t ≤ 1) ∧ a * t ^ 2 + b * t + c ≤ 0} := by
  rw [real_div (mul_pos two_pos ha).ne']
  by_cases hq : q = 0
  · -- The line touches the ball in its starting point, and the quotient is not a number.
    obtain ⟨rfl, rfl⟩ := hzero hq
    have hnan : real (-2 * 0) / real q = nan := by
      rw [hq, mul_zero]
      exact (if_pos rfl).trans ((if_neg (lt_irrefl 0)).trans (if_neg (lt_irrefl 0)))
    obtain rfl : entire = false := hstart.resolve_right (not_not_intro hq)
    rw [hnan, if_neg nofun, hq, neg_zero, zero_div, clip_nan]
    refine ⟨0, 0, le_rfl, rfl, rfl, Set.ext fun t ↦ ?_⟩
    rw [Set.mem_ofPred_eq, Set.Icc_self, Set.mem_singleton_iff]
    constructor
    · rintro ⟨-, hle⟩
      rw [zero_mul, add_zero, add_zero] at hle
      exact pow_eq_zero_iff two_ne_zero |>.mp
        (le_antisymm (nonpos_of_mul_nonpos_right hle ha) (sq_nonneg t))
    · rintro rfl
      simp
  · have hset : {t : ℝ | (entire = false → 0 ≤ t ∧ t ≤ 1) ∧ a * t ^ 2 + b * t + c ≤ 0} =
        {t | (entire = false → 0 ≤ t ∧ t ≤ 1)
          ∧ t ∈ Set.Icc (min (-q / (2 * a)) (-2 * c / q)) (max (-q / (2 * a)) (-2 * c / q))} :=
      Set.ext fun t ↦ and_congr_right fun _ ↦ quadratic_nonpos_iff ha hq h
    rw [hset, real_div hq]
    split
    next hle =>
      rw [real_le] at hle
      rw [min_eq_left hle, max_eq_right hle]
      exact spans_clip hle entire
    next hlt =>
      rw [real_le, not_le] at hlt
      rw [min_eq_right hlt.le, max_eq_left hlt.le]
      exact spans_clip hlt.le entire

/-- A search in a ball spans the parameters at which the line is in the ball, if the direction is
not zero. Only a line that touches the ball in its starting point must not be searched entirely. -/
theorem yields_inBall_spans (hz : Vec.IsReal z) (hd : Vec.IsReal d)
    (hmoves : ¬(Vec.norm d == (0 : Extended)) = true) {ρ : ℝ} {entire : Bool}
    (hstart : entire = false ∨ ¬(Vec.dotSum z d = 0 ∧ Vec.sumSq z = ρ ^ 2)) :
    Yields (fun r ↦ Spans r {t | (entire = false → 0 ≤ t ∧ t ≤ 1)
        ∧ Vec.sumSq (Vec.onLine z d (real t)) ≤ ρ ^ 2})
      (inBall z d (real ρ) entire) := by
  rw [inBall, if_neg hmoves]
  refine (Vec.yields_dot_eq d d).bind fun a ha ↦ (Vec.yields_dot_eq z d).bind fun b hb ↦
    (Vec.yields_dot_eq z z).bind fun c hc ↦ ?_
  obtain ⟨rfl, -⟩ := ha
  obtain ⟨rfl, hlength⟩ := hb
  obtain ⟨rfl, -⟩ := hc
  obtain ⟨n, f, g, rfl, rfl⟩ := Vec.exists_ofCoords hz hd hlength
  have htwo : (2.0 : Extended) = real 2 := by rw [ofScientific_eq]; norm_num
  have hfour : (4.0 : Extended) = real 4 := by rw [ofScientific_eq]; norm_num
  have hpos : 0 < ∑ i ∈ Finset.range n, g i * g i := by
    rw [← Vec.sumSq_ofCoords]
    refine lt_of_le_of_ne (Vec.sumSq_nonneg _) fun hzero ↦ hmoves ?_
    rw [Vec.norm_eq hd, ← hzero, Real.sqrt_zero, zero_eq, real_beq]
  have hline := Vec.sumSq_onLine n f g
  rw [Vec.sumSq_ofCoords] at hstart
  rw [Vec.dotSum_ofCoords] at hstart
  rw [Vec.dotSum_ofCoords, Vec.dotSum_ofCoords, Vec.dotSum_ofCoords, htwo, hfour]
  generalize (∑ i ∈ Finset.range n, g i * g i) = a, (∑ i ∈ Finset.range n, f i * g i) = b,
    (∑ i ∈ Finset.range n, f i * f i) = c at *
  have hset : {t : ℝ | (entire = false → 0 ≤ t ∧ t ≤ 1)
      ∧ Vec.sumSq (Vec.onLine (Vec.ofCoords n f) (Vec.ofCoords n g) (real t)) ≤ ρ ^ 2} =
      {t | (entire = false → 0 ≤ t ∧ t ≤ 1) ∧ a * t ^ 2 + 2 * b * t + (c - ρ * ρ) ≤ 0} :=
    Set.ext fun t ↦ and_congr_right fun _ ↦ by
      rw [hline, sq ρ, ← sub_nonpos, add_sub_assoc]
  rw [hset]
  simp only [real_mul, real_sub, real_neg]
  split
  next hdisc =>
    refine Ensures.pure (Set.eq_empty_of_forall_notMem fun t ht ↦ ?_)
    rw [zero_eq, real_lt] at hdisc
    have hsquare := sq_nonneg (2 * a * t + 2 * b)
    nlinarith [ht.2]
  next hdisc =>
    obtain ⟨q, hq, hroot, hzero⟩ := exists_root_number hpos (not_lt.mp hdisc)
    rw [hq]
    refine Ensures.pure (spans_clip_roots hpos hroot hzero (hstart.imp_right fun htouch hq0 ↦ ?_))
    obtain ⟨hb, hc⟩ := hzero hq0
    exact htouch ⟨by rw [zero_eq, real_inj]; linarith, by rw [sq]; linarith⟩

theorem yields_inBall_real (hz : Vec.IsReal z) (hd : Vec.IsReal d) {ρ : ℝ} {entire : Bool}
    (hstart : entire = false ∨ Vec.sumSq z < ρ ^ 2) :
    Yields (fun q ↦ ∀ s t, q = some (s, t) → (s ≠ nan ∧ t ≠ nan)
        ∧ ∀ r : ℝ, s ≤ real r → real r ≤ t → Vec.sumSq (Vec.onLine z d (real r)) ≤ ρ ^ 2)
      (inBall z d (real ρ) entire) := by
  by_cases hmoves : (Vec.norm d == (0 : Extended)) = true
  · rw [inBall, if_pos hmoves]
    refine Ensures.pure ?_
    rintro s t ⟨⟩
  · refine (yields_inBall_spans hz hd hmoves (hstart.imp_right fun hlt h ↦ hlt.ne h.2)).mono
      fun r hr s t hsome ↦ ?_
    obtain rfl := hsome
    obtain ⟨x, y, -, rfl, rfl, hset⟩ := hr
    exact ⟨⟨real_ne_nan x, real_ne_nan y⟩, fun r h₁ h₂ ↦ (hset.ge ⟨h₁, h₂⟩).2⟩

theorem yields_inBoxAndBall_real (hz : Vec.IsReal z) (hd : Vec.IsReal d)
    (h : Vec.AdmitZero lower upper) {ρ : ℝ} {entire : Bool}
    (hstart : entire = false ∨ Vec.sumSq z < ρ ^ 2) :
    Yields (fun q ↦ ∀ first r, q = some (first, real r) →
        Vec.sumSq (Vec.onLine z d (real r)) ≤ ρ ^ 2)
      (inBoxAndBall z d lower upper (real ρ) entire) := by
  rw [inBoxAndBall]
  refine (yields_inBox hz hd h entire).bind fun q _ ↦ ?_
  obtain _ | ⟨a, b⟩ := q
  · refine Ensures.pure ?_
    rintro first r ⟨⟩
  refine (yields_inBall_real hz hd hstart).bind fun q hq ↦ ?_
  obtain _ | ⟨s, t⟩ := q
  · refine Ensures.pure ?_
    rintro first r ⟨⟩
  obtain ⟨⟨hs, ht⟩, hmem⟩ := hq s t rfl
  refine Ensures.pure fun first r hsome ↦ ?_
  split at hsome
  next hle =>
    rw [Option.some.injEq, Prod.mk.injEq] at hsome
    obtain ⟨-, hlast⟩ := hsome
    rw [hlast] at hle
    have hr : real r ≤ Scalar.minNum b t := hlast ▸ real_le.mpr le_rfl
    exact hmem r (le_of_maxNum_le_right hs hle) (le_of_le_minNum_right ht hr)
  · cases hsome

/-- The ball of a search between zero and one may be infinite. -/
theorem yields_inBoxAndBall_norm (hz : Vec.IsReal z) (hd : Vec.IsReal d)
    (h : Vec.AdmitZero lower upper) {radius : Extended} (hradius : 0 ≤ radius) :
    Yields (fun q ↦ ∀ first r, q = some (first, real r) →
        Vec.norm (Vec.onLine z d (real r)) ≤ radius)
      (inBoxAndBall z d lower upper radius false) := by
  rcases real_le_iff.mp hradius with rfl | ⟨ρ, hρ, rfl⟩
  · refine (yields_inBoxAndBall hz hd h posInf false).mono fun q _ first r _ ↦ ?_
    obtain ⟨c, hc⟩ := (hz.onLine hd (isReal_real r)).norm
    rw [hc]
    exact real_le_posInf c
  · exact (yields_inBoxAndBall_real hz hd h (.inl rfl)).mono fun q hq first r hsome ↦
      (Vec.norm_le_iff (hz.onLine hd (isReal_real r)) hρ).mpr (hq first r hsome)

/-! ## Searches from a point inside

A search over the entire line that starts inside of the box and of the ball goes forwards. -/

theorem yields_inBall_forwards (hz : Vec.IsReal z) (hd : Vec.IsReal d)
    (hzd : z.length = d.length) {ρ : ℝ} (hball : Vec.sumSq z < ρ ^ 2) :
    Yields (fun r ↦ ∀ s t, r = some (s, t) → 0 ≤ t) (inBall z d (real ρ) true) := by
  by_cases hmoves : (Vec.norm d == (0 : Extended)) = true
  · rw [inBall, if_pos hmoves]
    refine Ensures.pure ?_
    rintro s t ⟨⟩
  · refine (yields_inBall_spans hz hd hmoves (.inr fun h ↦ hball.ne h.2)).mono
      fun r hr s t hsome ↦ ?_
    obtain rfl := hsome
    obtain ⟨x, y, -, rfl, rfl, hset⟩ := hr
    have hstart : (0 : ℝ) ∈ Set.Icc x y := by
      rw [← hset, Set.mem_ofPred_eq, Vec.onLine_start hz hd hzd]
      exact ⟨fun h ↦ absurd h.symm Bool.false_ne_true, hball.le⟩
    exact real_le.mpr hstart.2

theorem yields_inBox_forwards (hz : Vec.IsReal z) (hd : Vec.IsReal d)
    (h : Vec.AdmitZero lower upper) (hlength : lower.length = upper.length)
    (hzd : z.length = d.length) (hfits : Vec.Fits z lower upper) :
    Yields (fun r ↦ ∀ s t, r = some (s, t) → 0 ≤ t) (inBox z d lower upper true) := by
  by_cases hmoves : (Vec.norm d == (0 : Extended)) = true
  · rw [inBox, if_pos hmoves]
    refine Ensures.pure ?_
    rintro s t ⟨⟩
  · refine (yields_inBox_describes hz hd h.admitPoint hlength hmoves true).mono
      fun r hr s t hsome ↦ ?_
    obtain rfl := hsome
    refine ((hr.2 0).mp ⟨fun h ↦ absurd h.symm Bool.false_ne_true, ?_⟩).2
    rwa [Vec.onLine_start hz hd hzd]

theorem yields_inBoxAndBall_forwards (hz : Vec.IsReal z) (hd : Vec.IsReal d)
    (h : Vec.AdmitZero lower upper) (hlength : lower.length = upper.length)
    (hzd : z.length = d.length) (hfits : Vec.Fits z lower upper) {ρ : ℝ}
    (hball : Vec.sumSq z < ρ ^ 2) :
    Yields (fun r ↦ ∀ s t, r = some (s, t) → 0 ≤ t)
      (inBoxAndBall z d lower upper (real ρ) true) := by
  refine (yields_inBox_forwards hz hd h hlength hzd hfits).bind fun r hr ↦ ?_
  obtain _ | ⟨a, b⟩ := r
  · exact Ensures.pure nofun
  refine (yields_inBall_forwards hz hd hzd hball).bind fun q hq ↦ ?_
  obtain _ | ⟨s, t⟩ := q
  · exact Ensures.pure nofun
  refine Ensures.pure fun first last hsome ↦ ?_
  split at hsome
  · obtain ⟨-, rfl⟩ := hsome
    exact le_minNum (hr a b rfl) (hq s t rfl)
  · cases hsome

end Segment

end LogBarrier
