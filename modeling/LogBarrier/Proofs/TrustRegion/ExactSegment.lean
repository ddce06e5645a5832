import LogBarrier.Proofs.Exact.Euclidean
import LogBarrier.Proofs.Shape.Steps
import LogBarrier.Proofs.TrustRegion.Ball

/-!
# Exact segments

The parameters at which a line is in a box and in a ball are an interval, and a search finds its two
ends, or finds that there are none. Which parameters belong to the interval is defined without any
reference to slabs or to roots.

## The exception

A line that touches the ball in its starting point and nowhere else has a root that is not a number.
Such lines are excluded here, except from the lemmas on searches between zero and one, which are
right for them as well.
-/

namespace LogBarrier

open Extended

namespace Vec

/-- The bounds are real numbers or infinite, and no lower bound is above the upper bound of the same
entry. -/
structure Ordered (lower upper : Vec Extended) : Prop extends AdmitReals lower upper where
  le : ∀ (i : ℕ) (l u : Extended), lower[i]? = some l → upper[i]? = some u → l ≤ u

variable {lower upper : Vec Extended}

/-- Bounds in the right order have a real number between them, even if both are infinite. -/
theorem Ordered.admitPoint (h : Ordered lower upper) : AdmitPoint lower upper := by
  intro i l u hl hu
  have hle := h.le i l u hl hu
  have hlower := h.lower_ne l (List.mem_of_getElem? hl)
  have hupper := h.upper_ne u (List.mem_of_getElem? hu)
  cases l with
  | real x => exact ⟨x, real_le.mpr le_rfl, hle⟩
  | negInf =>
    cases u with
    | real y => exact ⟨y, negInf_le_real y, real_le.mpr le_rfl⟩
    | posInf => exact ⟨0, negInf_le_real 0, real_le_posInf 0⟩
    | negInf => exact absurd rfl hupper
    | nan => exact absurd rfl (ne_nan_of_le hle).2
  | posInf => exact absurd rfl hlower
  | nan => exact absurd rfl (ne_nan_of_le hle).1

end Vec

namespace Segment

variable {z d lower upper : Vec Extended} {radius : Extended} {entire : Bool}

/-- The parameters at which the line is in the ball and in the box, on the entire line or between
zero and one. -/
def parameters (z d lower upper : Vec Extended) (radius : Extended) (entire : Bool) : Set ℝ :=
  {t | (entire = false → 0 ≤ t ∧ t ≤ 1) ∧ Vec.norm (Vec.onLine z d (real t)) ≤ radius
    ∧ Vec.Fits (Vec.onLine z d (real t)) lower upper}

/-! ## The parts -/

/-- A search in a box and in a ball finds the common part of what it finds in each of them. -/
theorem yields_inBoxAndBall_inter {P : Option (Extended × Extended) → Set ℝ → Prop} {S T : Set ℝ}
    (hnone : ∀ U, P none U ↔ U = ∅)
    (hinter : ∀ a b s t, Describes (some (a, b)) S → P (some (s, t)) T →
      P (if Scalar.maxNum a s ≤ Scalar.minNum b t
        then some (Scalar.maxNum a s, Scalar.minNum b t) else none) (S ∩ T))
    (hbox : Yields (fun r ↦ Describes r S) (inBox z d lower upper entire))
    (hball : Yields (fun r ↦ P r T) (inBall z d radius entire)) :
    Yields (fun r ↦ P r (S ∩ T)) (inBoxAndBall z d lower upper radius entire) := by
  refine hbox.bind fun r hr ↦ ?_
  obtain _ | ⟨a, b⟩ := r
  · refine Ensures.pure ((hnone _).mpr ?_)
    rw [show S = ∅ from hr, Set.empty_inter]
  refine hball.bind fun q hq ↦ ?_
  obtain _ | ⟨s, t⟩ := q
  · refine Ensures.pure ((hnone _).mpr ?_)
    rw [(hnone T).mp hq, Set.inter_empty]
  · exact Ensures.pure (hinter a b s t hr hq)

theorem parameters_eq_inter (hz : Vec.IsReal z) (hd : Vec.IsReal d) {ρ : ℝ} (hρ : 0 ≤ ρ) :
    parameters z d lower upper (real ρ) entire =
      {t | (entire = false → 0 ≤ t ∧ t ≤ 1) ∧ Vec.Fits (Vec.onLine z d (real t)) lower upper}
        ∩ {t | (entire = false → 0 ≤ t ∧ t ≤ 1)
          ∧ Vec.sumSq (Vec.onLine z d (real t)) ≤ ρ ^ 2} := by
  ext t
  have hball := Vec.norm_le_iff (hz.onLine hd (isReal_real t)) hρ
  constructor
  · rintro ⟨hunit, hnorm, hfits⟩
    exact ⟨⟨hunit, hfits⟩, hunit, hball.mp hnorm⟩
  · rintro ⟨⟨hunit, hfits⟩, -, hsumSq⟩
    exact ⟨hunit, hball.mpr hsumSq, hfits⟩

theorem yields_inBoxAndBall_spans (hz : Vec.IsReal z) (hd : Vec.IsReal d)
    (h : Vec.AdmitPoint lower upper) (hlength : lower.length = upper.length)
    (hmoves : ¬(Vec.norm d == (0 : Extended)) = true) {ρ : ℝ} (hρ : 0 ≤ ρ)
    (hstart : entire = false ∨ ¬(Vec.dotSum z d = 0 ∧ Vec.sumSq z = ρ ^ 2)) :
    Yields (fun r ↦ Spans r (parameters z d lower upper (real ρ) entire))
      (inBoxAndBall z d lower upper (real ρ) entire) := by
  rw [parameters_eq_inter hz hd hρ]
  exact yields_inBoxAndBall_inter (fun _ ↦ Iff.rfl) (fun _ _ _ _ ↦ Describes.inter_spans)
    (yields_inBox_describes hz hd h hlength hmoves entire)
    (yields_inBall_spans hz hd hmoves hstart)

/-- Between zero and one, the ball may be infinite, and the line may touch it. -/
theorem yields_inBoxAndBall_describes (hz : Vec.IsReal z) (hd : Vec.IsReal d)
    (h : Vec.AdmitPoint lower upper) (hlength : lower.length = upper.length)
    (hmoves : ¬(Vec.norm d == (0 : Extended)) = true) (hradius : 0 ≤ radius) :
    Yields (fun r ↦ Describes r (parameters z d lower upper radius false))
      (inBoxAndBall z d lower upper radius false) := by
  rcases real_le_iff.mp hradius with rfl | ⟨ρ, hρ, rfl⟩
  · have hball : Yields (fun r ↦ Describes r {t | 0 ≤ t}) (inBall z d posInf false) := by
      rw [inBall, if_neg hmoves]
      exact Ensures.pure ⟨⟨real_ne_nan 0, posInf_ne_nan⟩, fun t ↦
        real_le.symm.trans (and_iff_left (real_le_posInf t)).symm⟩
    have hset : parameters z d lower upper posInf false =
        {t | (false = false → 0 ≤ t ∧ t ≤ 1) ∧ Vec.Fits (Vec.onLine z d (real t)) lower upper}
          ∩ {t | 0 ≤ t} := by
      ext t
      obtain ⟨r, hr⟩ := (hz.onLine hd (isReal_real t)).norm
      constructor
      · rintro ⟨hunit, -, hfits⟩
        exact ⟨⟨hunit, hfits⟩, (hunit rfl).1⟩
      · rintro ⟨⟨hunit, hfits⟩, -⟩
        exact ⟨hunit, hr ▸ real_le_posInf r, hfits⟩
    rw [hset]
    exact yields_inBoxAndBall_inter (fun _ ↦ Iff.rfl) (fun _ _ _ _ ↦ Describes.inter)
      (yields_inBox_describes hz hd h hlength hmoves false) hball
  · exact (yields_inBoxAndBall_spans hz hd h hlength hmoves hρ (.inl rfl)).mono
      fun _ hr ↦ hr.describes

/-- A search between zero and one from a point that fits ends at the greatest parameter. -/
theorem yields_inBoxAndBall_greatest (hz : Vec.IsReal z) (hd : Vec.IsReal d)
    (h : Vec.AdmitPoint lower upper) (hlength : lower.length = upper.length)
    (hmoves : ¬(Vec.norm d == (0 : Extended)) = true) (hradius : 0 ≤ radius)
    (hstart : 0 ∈ parameters z d lower upper radius false) :
    Yields (fun r ↦ ∃ first t, r = some (first, real t)
        ∧ IsGreatest (parameters z d lower upper radius false) t)
      (inBoxAndBall z d lower upper radius false) := by
  refine ((yields_inBoxAndBall_describes hz hd h hlength hmoves hradius).and
    (yields_inBoxAndBall_last hz hd lower upper radius false)).mono fun r hr ↦ ?_
  obtain ⟨hdescribes, hlast⟩ := hr
  obtain _ | ⟨first, last⟩ := r
  · exact absurd hstart (Set.eq_empty_iff_forall_notMem.mp hdescribes 0)
  · obtain ⟨t, rfl⟩ := hlast rfl first last rfl
    obtain ⟨-, hmem⟩ := hdescribes
    obtain ⟨hfirst, ht⟩ := (hmem 0).mp hstart
    refine ⟨first, t, rfl, (hmem t).mpr ⟨le_trans hfirst ht, real_le.mpr le_rfl⟩, fun s hs ↦ ?_⟩
    exact real_le.mp ((hmem s).mp hs).2

/-! ## The whole -/

/-- **A search finds the exact segment.** Unless the line touches the ball in its starting point,
the result is the interval of all parameters at which the line is in the ball and in the box, and
there is no result exactly when there are no such parameters. -/
theorem inBoxAndBall_finds_parameters {n : ℕ} {ρ : ℝ} (hz : Vec.InSpace n z)
    (hd : Vec.InSpace n d) (hmoves : d ≠ Vec.zeros n) (hbounds : Vec.Ordered lower upper)
    (hlower : lower.length = n) (hupper : upper.length = n) (hρ : 0 ≤ ρ) (entire : Bool)
    (htouch : ¬(Vec.dotSum z d = 0 ∧ Vec.norm z = real ρ)) :
    ∃ r, inBoxAndBall z d lower upper (real ρ) entire = .ok r
      ∧ (r = none ↔ parameters z d lower upper (real ρ) entire = ∅)
      ∧ ∀ first last, r = some (first, last) → ∃ a b : ℝ, first = real a ∧ last = real b
        ∧ parameters z d lower upper (real ρ) entire = Set.Icc a b := by
  have hdirection : ¬(Vec.norm d == (0 : Extended)) = true := by
    rw [Vec.norm_beq_zero_iff hd.isReal, hd.length_eq]
    exact hmoves
  have hstart : ¬(Vec.dotSum z d = 0 ∧ Vec.sumSq z = ρ ^ 2) := fun h ↦ htouch ⟨h.1, by
    rw [Vec.norm_eq hz.isReal, h.2, Real.sqrt_sq hρ]⟩
  obtain ⟨r, hr, -⟩ := (ensures_inBoxAndBall (real ρ) entire hz.length_eq hd.length_eq hlower
    hupper).exists_ok
  have hspans := (yields_inBoxAndBall_spans hz.isReal hd.isReal hbounds.admitPoint
    (hlower.trans hupper.symm) hdirection hρ (.inr hstart)).of_eq_ok hr
  refine ⟨r, hr, ?_, ?_⟩
  · constructor
    · rintro rfl
      exact hspans
    · intro hempty
      obtain _ | ⟨first, last⟩ := r
      · rfl
      · obtain ⟨a, b, hab, -, -, hset⟩ := hspans
        exact absurd (hempty ▸ hset ▸ Set.left_mem_Icc.mpr hab) (Set.notMem_empty a)
  · rintro first last rfl
    obtain ⟨a, b, -, hfirst, hlast, hset⟩ := hspans
    exact ⟨a, b, hfirst, hlast, hset⟩

/-- On the axis, a half line and the unit ball have the parameters from `-1/2` to one in common. -/
theorem parameters_axis : parameters (Vec.zeros 1) [real 1] [real (-1 / 2)] [posInf] (real 1) true =
    Set.Icc (-1 / 2) 1 := by
  have hreal : Vec.IsReal [real 1] := Vec.isReal_cons.mpr ⟨isReal_real 1, Vec.isReal_nil⟩
  ext t
  have hline : Vec.onLine (Vec.zeros 1) [real 1] (real t) = Vec.ofCoords 1 fun _ ↦ t :=
    congrArg (fun s : ℝ ↦ [real s]) (by ring)
  rw [parameters, Set.mem_ofPred_eq, hline, Vec.norm_le_iff (Vec.isReal_ofCoords _ _) zero_le_one,
    Vec.sumSq_ofCoords, Finset.sum_range_one, ← sq, one_pow, sq_le_one_iff_abs_le_one, abs_le]
  change (_ ∧ _ ∧ Vec.Fits [real t] _ _) ↔ _
  rw [Vec.fits_cons, real_le, Set.mem_Icc]
  constructor
  · rintro ⟨-, ⟨-, hone⟩, ⟨hhalf, -⟩, -⟩
    exact ⟨hhalf, hone⟩
  · rintro ⟨hhalf, hone⟩
    exact ⟨nofun, ⟨by linarith, hone⟩, ⟨hhalf, real_le_posInf t⟩, Vec.fits_nil⟩

theorem ordered_axis : Vec.Ordered [real (-1 / 2)] [posInf] where
  lower_ne := List.forall_mem_singleton.mpr nofun
  upper_ne := List.forall_mem_singleton.mpr nofun
  le i l u hl hu := by
    obtain rfl := List.mem_singleton.mp (List.mem_of_getElem? hl)
    obtain rfl := List.mem_singleton.mp (List.mem_of_getElem? hu)
    exact real_le_posInf _

theorem axis_finds_parameters :
    inBoxAndBall (Vec.zeros 1) [real 1] [real (-1 / 2)] [posInf] (real 1) true =
      .ok (some (real (-1 / 2), real 1)) := by
  have hdirection : Vec.InSpace 1 [real 1] :=
    ⟨Vec.isReal_cons.mpr ⟨isReal_real 1, Vec.isReal_nil⟩, rfl⟩
  have hmoves : [real 1] ≠ Vec.zeros 1 := fun h ↦
    one_ne_zero (real_inj.mp (List.head_eq_of_cons_eq h))
  have hinside : ¬(Vec.dotSum (Vec.zeros 1) [real 1] = 0 ∧ Vec.norm (Vec.zeros 1) = real 1) := by
    rintro ⟨-, hnorm⟩
    rw [Vec.norm_zeros, zero_eq, real_inj] at hnorm
    exact zero_ne_one hnorm
  have horigin : Vec.InSpace 1 (Vec.zeros 1) := ⟨Vec.IsReal.zeros 1, Vec.length_zeros 1⟩
  obtain ⟨r, hr, hnone, hsome⟩ := inBoxAndBall_finds_parameters horigin hdirection hmoves
    ordered_axis rfl rfl zero_le_one true hinside
  rw [parameters_axis] at hnone hsome
  have hle : (-1 / 2 : ℝ) ≤ 1 := by norm_num
  have hne := Set.nonempty_Icc.mpr hle
  obtain _ | ⟨first, last⟩ := r
  · exact absurd (hnone.mp rfl) hne.ne_empty
  · obtain ⟨a, b, rfl, rfl, hset⟩ := hsome first last rfl
    have hab : a ≤ b := Set.nonempty_Icc.mp (hset ▸ hne)
    obtain rfl : -1 / 2 = a := (isLeast_Icc hle).unique (hset ▸ isLeast_Icc hab)
    obtain rfl : 1 = b := (isGreatest_Icc hle).unique (hset ▸ isGreatest_Icc hab)
    exact hr

end Segment

end LogBarrier
