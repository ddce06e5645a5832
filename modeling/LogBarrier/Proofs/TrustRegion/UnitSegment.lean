import LogBarrier.Proofs.TrustRegion.ExactSegment

/-!
# The ball between zero and one

A search in a ball that is not over the entire line is for the parameters between zero and one. With
a finite radius, the result is the exact interval of these parameters, also for a line that only
touches the ball and for a ball that is a single point.

## The infinite radius

An infinite ball holds every point of the line, and the search answers before the segment is
clipped. The least parameter is right, but the greatest is infinite instead of one. The search in a
box and in a ball takes the smaller of the ends of both, and the end in the box is clipped.
-/

namespace LogBarrier

open Extended

namespace Segment

variable {n : ℕ} {z d : Vec Extended} {radius : Extended}

/-- The parameters between zero and one at which the line is in the ball. -/
def unitParameters (z d : Vec Extended) (radius : Extended) : Set ℝ :=
  {t | t ∈ Set.Icc 0 1 ∧ Vec.norm (Vec.onLine z d (real t)) ≤ radius}

/-! ## The two kinds of radius -/

theorem unitParameters_real (hz : Vec.IsReal z) (hd : Vec.IsReal d) {ρ : ℝ} (hρ : 0 ≤ ρ) :
    unitParameters z d (real ρ) = {t | (false = false → 0 ≤ t ∧ t ≤ 1)
      ∧ Vec.sumSq (Vec.onLine z d (real t)) ≤ ρ ^ 2} := by
  ext t
  have hball := Vec.norm_le_iff (hz.onLine hd (isReal_real t)) hρ
  constructor
  · rintro ⟨hunit, hnorm⟩
    exact ⟨fun _ ↦ hunit, hball.mp hnorm⟩
  · rintro ⟨hunit, hsumSq⟩
    exact ⟨hunit rfl, hball.mpr hsumSq⟩

/-- A finite radius, that may be zero, gives the exact segment. -/
theorem yields_inBall_unit (hz : Vec.IsReal z) (hd : Vec.IsReal d)
    (hmoves : ¬(Vec.norm d == (0 : Extended)) = true) {ρ : ℝ} (hρ : 0 ≤ ρ) :
    Yields (fun r ↦ Spans r (unitParameters z d (real ρ))) (inBall z d (real ρ) false) := by
  rw [unitParameters_real hz hd hρ]
  exact yields_inBall_spans hz hd hmoves (.inl rfl)

theorem unitParameters_posInf (hz : Vec.IsReal z) (hd : Vec.IsReal d) :
    unitParameters z d posInf = Set.Icc 0 1 := by
  ext t
  obtain ⟨r, hr⟩ := (hz.onLine hd (isReal_real t)).norm
  exact and_iff_left (hr ▸ real_le_posInf r)

theorem inBall_posInf (hmoves : ¬(Vec.norm d == (0 : Extended)) = true) :
    inBall z d posInf false = .ok (some (real 0, posInf)) := by
  rw [inBall, if_neg hmoves]
  rfl

/-! ## The whole -/

/-- **A search between zero and one finds its part of the ball.** For every radius, there is a
result exactly when there are such parameters, and its first end is the least of them. Its last end
is the greatest of them if the radius is finite, and infinite if the radius is infinite. -/
theorem inBall_finds_unit_parameters (hz : Vec.InSpace n z) (hd : Vec.InSpace n d)
    (hmoves : d ≠ Vec.zeros n) (hradius : 0 ≤ radius) :
    ∃ r, inBall z d radius false = .ok r
      ∧ (r = none ↔ unitParameters z d radius = ∅)
      ∧ ∀ first last, r = some (first, last) → ∃ a b : ℝ, (0 ≤ a ∧ a ≤ b ∧ b ≤ 1)
        ∧ unitParameters z d radius = Set.Icc a b ∧ first = real a
        ∧ (radius.IsReal → last = real b) ∧ (radius = posInf → last = posInf) := by
  have hdirection : ¬(Vec.norm d == (0 : Extended)) = true := by
    rw [Vec.norm_beq_zero_iff hd.isReal, hd.length_eq]
    exact hmoves
  rcases real_le_iff.mp hradius with rfl | ⟨ρ, hρ, rfl⟩
  · have hset := unitParameters_posInf hz.isReal hd.isReal
    refine ⟨_, inBall_posInf hdirection, ⟨nofun, fun hempty ↦ ?_⟩, ?_⟩
    · rw [hset, Set.Icc_eq_empty_iff] at hempty
      exact absurd zero_le_one hempty
    · rintro first last ⟨⟩
      exact ⟨0, 1, ⟨le_rfl, zero_le_one, le_rfl⟩, hset, rfl, nofun, fun _ ↦ rfl⟩
  · obtain ⟨r, hr, -⟩ := (ensures_inBall (real ρ) false hz.length_eq hd.length_eq).exists_ok
    have hspans := (yields_inBall_unit hz.isReal hd.isReal hdirection hρ).of_eq_ok hr
    refine ⟨r, hr, ⟨?_, fun hempty ↦ ?_⟩, ?_⟩
    · rintro rfl
      exact hspans
    · obtain _ | ⟨first, last⟩ := r
      · rfl
      · obtain ⟨a, b, hab, -, -, hset⟩ := hspans
        exact absurd (hset.symm.trans hempty) (Set.nonempty_Icc.mpr hab).ne_empty
    · rintro first last rfl
      obtain ⟨a, b, hab, hfirst, hlast, hset⟩ := hspans
      have hunit : Set.Icc a b ⊆ Set.Icc 0 1 := fun t ht ↦ (hset.symm.subset ht).1
      obtain ⟨ha, hb⟩ := (Set.Icc_subset_Icc_iff hab).mp hunit
      exact ⟨a, b, ⟨ha, hab, hb⟩, hset, hfirst, fun _ ↦ hlast, nofun⟩

/-- Moving twice as far as the radius leaves the ball halfway. -/
theorem unitParameters_axis :
    unitParameters (Vec.zeros 1) [real 2] (real 1) = Set.Icc 0 (1 / 2) := by
  have hreal : Vec.IsReal [real 2] := Vec.isReal_cons.mpr ⟨isReal_real 2, Vec.isReal_nil⟩
  rw [unitParameters_real (Vec.IsReal.zeros 1) hreal zero_le_one]
  ext t
  have hline : Vec.onLine (Vec.zeros 1) [real 2] (real t) = Vec.ofCoords 1 fun _ ↦ 2 * t :=
    congrArg (fun s : ℝ ↦ [real s]) (zero_add (2 * t))
  rw [Set.mem_ofPred_eq, hline, Vec.sumSq_ofCoords, Finset.sum_range_one, ← sq, one_pow,
    sq_le_one_iff_abs_le_one, abs_le, Set.mem_Icc]
  constructor
  · rintro ⟨hunit, -, hone⟩
    exact ⟨(hunit rfl).1, by linarith⟩
  · rintro ⟨hzero, hhalf⟩
    exact ⟨fun _ ↦ ⟨hzero, by linarith⟩, by linarith, by linarith⟩

theorem axis_finds_unit_parameters :
    inBall (Vec.zeros 1) [real 2] (real 1) false = .ok (some (real 0, real (1 / 2))) := by
  have hdirection : Vec.InSpace 1 [real 2] :=
    ⟨Vec.isReal_cons.mpr ⟨isReal_real 2, Vec.isReal_nil⟩, rfl⟩
  have hmoves : [real 2] ≠ Vec.zeros 1 := fun h ↦
    two_ne_zero (real_inj.mp (List.head_eq_of_cons_eq h))
  have horigin : Vec.InSpace 1 (Vec.zeros 1) := ⟨Vec.IsReal.zeros 1, Vec.length_zeros 1⟩
  obtain ⟨r, hr, hnone, hsome⟩ := inBall_finds_unit_parameters horigin hdirection hmoves
    (real_le.mpr zero_le_one : (0 : Extended) ≤ real 1)
  rw [unitParameters_axis] at hnone hsome
  have hle : (0 : ℝ) ≤ 1 / 2 := by norm_num
  obtain _ | ⟨first, last⟩ := r
  · exact absurd (hnone.mp rfl) (Set.nonempty_Icc.mpr hle).ne_empty
  · obtain ⟨a, b, ⟨-, hab, -⟩, hset, rfl, hlast, -⟩ := hsome first last rfl
    obtain rfl : 0 = a := (isLeast_Icc hle).unique (hset ▸ isLeast_Icc hab)
    obtain rfl : 1 / 2 = b := (isGreatest_Icc hle).unique (hset ▸ isGreatest_Icc hab)
    rw [hr, hlast (isReal_real 1)]

/-- In an infinite ball, the parameters end at one, but the segment does not end. -/
theorem infinite_ball_is_not_clipped :
    inBall [real 0] [real 1] posInf false = .ok (some (real 0, posInf))
      ∧ unitParameters [real 0] [real 1] posInf = Set.Icc 0 1
      ∧ ¬∃ a b : ℝ, inBall [real 0] [real 1] posInf false = .ok (some (real a, real b))
        ∧ unitParameters [real 0] [real 1] posInf = Set.Icc a b := by
  have hz : Vec.IsReal [real 0] := Vec.isReal_cons.mpr ⟨isReal_real 0, Vec.isReal_nil⟩
  have hd : Vec.IsReal [real 1] := Vec.isReal_cons.mpr ⟨isReal_real 1, Vec.isReal_nil⟩
  have hmoves : ¬(Vec.norm [real 1] == (0 : Extended)) = true := by
    rw [Vec.norm_beq_zero_iff hd]
    exact fun h ↦ one_ne_zero (real_inj.mp (List.head_eq_of_cons_eq h))
  have hball : inBall [real 0] [real 1] posInf false = .ok (some (real 0, posInf)) :=
    inBall_posInf hmoves
  refine ⟨hball, unitParameters_posInf hz hd, ?_⟩
  rintro ⟨a, b, h, -⟩
  cases hball.symm.trans h

end Segment

end LogBarrier
