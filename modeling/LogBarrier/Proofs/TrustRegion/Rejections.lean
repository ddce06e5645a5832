import LogBarrier.Proofs.TrustRegion.Determined
import LogBarrier.Proofs.TrustRegion.Finite
import LogBarrier.Proofs.TrustRegion.Merit
import Mathlib.Algebra.Order.Floor.Ring
import Mathlib.Analysis.SpecialFunctions.Log.Basic

/-!
# Rejections in a row

A rejected trial leaves the iterate as it is, so the next round repeats the computation with another
radius. Nothing but the radius can end such a repetition.

## The radius

Whether the radius is reduced and whether the trial is rejected are two tests of the same ratio. The
first branches of the update ask for ratios that would have been accepted, and the last one leaves
the radius to the accepted ones. So a rejected trial always meets the reduction, also if its ratio
is minus infinity. The reduction is between the two factors for any proposal whatsoever: one outside
of the two is replaced, and one which is not a number fails both comparisons.

## Counting

After `k` rejections the radius is at most `μ ^ k` times what it was, with `μ < 1` for the milder
factor, and a search does not go on with a radius below the least one. An accepted trial may enlarge
the radius, so there is no bound on all rejections of a search, but only on those in a row. A search
without an end accepts trials again and again.
-/

namespace LogBarrier

open Extended

/-- The options with which a rejected trial shrinks the radius, by factors from `harsh` to `mild`,
down to the radius `least`. -/
structure TrustRegionOptions.Shrinking (options : TrustRegionOptions Extended)
    (harsh mild least : ℝ) : Prop where
  harshShrink : options.harshShrink = real harsh
  mildShrink : options.mildShrink = real mild
  minRadius : options.minRadius = real least
  harsh_pos : 0 < harsh
  harsh_le_mild : harsh ≤ mild
  mild_lt_one : mild < 1
  least_pos : 0 < least
  acceptableRatio : options.acceptableRatio.IsReal
  acceptable_lt_good : options.acceptableRatio < options.goodRatio
  good_le_excellent : options.goodRatio ≤ options.excellentRatio

/-- The functions of the problem are real where the objective and the constraints are finite. -/
def InnerProblem.RealWhereFinite (problem : InnerProblem Extended) : Prop :=
  ∀ z, Vec.IsReal z → problem.FiniteAt z → problem.RealAt z

theorem InnerProblem.RealValued.realWhereFinite {problem : InnerProblem Extended}
    (h : problem.RealValued) : problem.RealWhereFinite := fun _ hz _ ↦ h.realAt hz

variable {options : TrustRegionOptions Extended} {harsh mild least : ℝ}

theorem TrustRegionOptions.Shrinking.mild_pos (h : options.Shrinking harsh mild least) :
    0 < mild := h.harsh_pos.trans_le h.harsh_le_mild

theorem TrustRegionOptions.shrinking_default :
    ({} : TrustRegionOptions Extended).Shrinking 0.1 0.5 1e-8 where
  harshShrink := rfl
  mildShrink := rfl
  minRadius := rfl
  harsh_pos := by norm_num
  harsh_le_mild := by norm_num
  mild_lt_one := by norm_num
  least_pos := by norm_num
  acceptableRatio := isReal_real _
  acceptable_lt_good := real_lt.mpr (by norm_num)
  good_le_excellent := real_le.mpr (by norm_num)

/-! ## One trial -/

namespace Trial

variable {trial : Trial Extended} {D : ℝ}

theorem ratio_ne_nan (trial : Trial Extended) : trial.ratio ≠ nan := by
  rw [ratio]
  split
  next hfinite =>
    obtain ⟨r, hr⟩ := isFinite_iff.mp hfinite
    exact hr ▸ real_ne_nan r
  next =>
    intro h
    cases h

/-- Whatever radius is proposed, the reduced one is between the two factors. -/
theorem exists_reducedRadius (hoptions : options.Shrinking harsh mild least) (hD : 0 ≤ D)
    (ratio length : Extended) :
    ∃ D', reducedRadius options (real D) ratio length = real D' ∧ harsh * D ≤ D'
      ∧ D' ≤ mild * D := by
  have hfactors : harsh * D ≤ mild * D := mul_le_mul_of_nonneg_right hoptions.harsh_le_mild hD
  simp only [reducedRadius, hoptions.mildShrink, hoptions.harshShrink, real_mul]
  generalize (1 - options.acceptableRatio) / (1 - ratio) * length = proposed
  by_cases hmild : real (mild * D) ≤ proposed
  · rw [if_pos hmild]
    exact ⟨D * mild, rfl, by rwa [mul_comm D], (mul_comm D mild).le⟩
  by_cases hharsh : real (harsh * D) ≤ proposed
  · -- The proposal is a real number, since infinity would be beyond the milder factor.
    rw [if_neg hmild, if_pos hharsh]
    obtain rfl | ⟨P, hP, rfl⟩ := real_le_iff.mp hharsh
    · exact absurd (real_le_posInf _) hmild
    · exact ⟨P, rfl, hP, (not_le.mp hmild).le⟩
  · rw [if_neg hmild, if_neg hharsh]
    exact ⟨D * harsh, rfl, (mul_comm harsh D).le, by rwa [mul_comm D]⟩

theorem nextRadius_of_rejected (hoptions : options.Shrinking harsh mild least)
    (left : trial.isAccepted options = false) (radius : Extended) :
    trial.nextRadius options radius = reducedRadius options radius trial.ratio trial.length := by
  have hnot : ¬options.acceptableRatio ≤ trial.ratio := of_decide_eq_false left
  have hgood : ¬options.goodRatio ≤ trial.ratio := fun h ↦
    hnot (le_trans (le_of_lt hoptions.acceptable_lt_good) h)
  have hexcellent : ¬options.excellentRatio ≤ trial.ratio := fun h ↦
    hgood (le_trans hoptions.good_le_excellent h)
  have hlt : trial.ratio < options.acceptableRatio := by
    obtain ⟨η, hη⟩ := hoptions.acceptableRatio
    exact lt_of_not_le (hη ▸ real_ne_nan η) trial.ratio_ne_nan hnot
  rw [nextRadius, if_neg hexcellent, if_neg hgood, if_pos hlt]

/-- An accepted trial enlarges the radius by one of the two growths, or it leaves the radius as it
is. -/
theorem nextRadius_of_accepted (taken : trial.isAccepted options = true) (radius : Extended) :
    (∃ growth, (growth = options.excellentGrowth ∨ growth = options.goodGrowth)
      ∧ trial.nextRadius options radius = Scalar.maxNum radius (growth * trial.length))
    ∨ trial.nextRadius options radius = radius := by
  have hnot : ¬trial.ratio < options.acceptableRatio := not_lt_of_le (isAccepted_iff.mp taken)
  rw [nextRadius, if_neg hnot]
  split
  · exact .inl ⟨_, .inl rfl, rfl⟩
  split
  · exact .inl ⟨_, .inr rfl, rfl⟩
  · exact .inr rfl

theorem le_nextRadius_of_accepted (taken : trial.isAccepted options = true) :
    real D ≤ trial.nextRadius options (real D) := by
  obtain ⟨growth, -, h⟩ | h := nextRadius_of_accepted taken (real D)
  · rw [h]
    exact le_maxNum_of_le (real_le.mpr le_rfl)
  · rw [h]
    exact real_le.mpr le_rfl

theorem isReal_nextRadius_of_accepted (hexcellent : options.excellentGrowth.IsReal)
    (hgood : options.goodGrowth.IsReal) {radius : Extended} (hradius : radius.IsReal)
    (hlength : trial.length.IsReal) (taken : trial.isAccepted options = true) :
    (trial.nextRadius options radius).IsReal := by
  obtain ⟨growth, hgrowth, h⟩ | h := nextRadius_of_accepted taken radius
  · have hreal : growth.IsReal := hgrowth.elim (· ▸ hexcellent) (· ▸ hgood)
    rw [h]
    exact hradius.maxNum (hreal.mul hlength)
  · rwa [h]

/-- If only positive ratios suffice, the prediction of an accepted trial is real, and so is its
step, whatever the problem is. -/
theorem Judged.isReal_length {point : Point Extended} {penalty : Extended}
    (hratio : options.acceptableRatio.IsReal) (hpos : 0 < options.acceptableRatio)
    (h : trial.Judged options point penalty) (taken : trial.isAccepted options = true) :
    trial.length.IsReal := by
  have hfinite := isFinite_quotient_of_accepted ieeeRules (isFinite_iff.mpr hratio) taken
  obtain ⟨η, hη⟩ := hratio
  obtain ⟨r, hr⟩ := isFinite_iff.mp hfinite
  rw [isAccepted_iff, ratio, if_pos hfinite, hr, hη] at taken
  rw [hη] at hpos
  have hr₀ : 0 < r := (real_lt.mp hpos).trans_le (real_le.mp taken)
  have hpredicted : trial.predicted.IsReal := isReal_of_div_eq hr hr₀.ne'
  rw [h.predicted] at hpredicted
  obtain ⟨_, _, slope, -, -, hslope, hmodel⟩ := h.model
  have hreal := isReal_of_neg (isReal_of_add hpredicted).1
  rw [hmodel] at hreal
  rw [h.length]
  have hslopeFinite := isFinite_iff.mpr (isReal_of_add hreal).2
  exact Vec.IsReal.norm fun a ha ↦
    isFinite_iff.mp (Vec.isFinite_of_dot ieeeRules hslope hslopeFinite a ha)

end Trial

namespace TrustRegion

variable {problem : InnerProblem Extended} {bounds : StepBox Extended} {z v : Vec Extended}
  {radius penalty : Extended} {s s' s₀ : State Extended} {trials : List (Trial Extended)}
  {trial : Trial Extended} {D : ℝ}

/-! ## The radius of rejections in a row -/

theorem GoesOn.least_le (hoptions : options.Shrinking harsh mild least) (hD : s.radius = real D)
    (going : GoesOn problem options s) : least ≤ D := by
  have hradius := going.2
  rw [hD, hoptions.minRadius, real_lt] at hradius
  exact not_lt.mp hradius

theorem exists_radius_stayed (hoptions : options.Shrinking harsh mild least)
    (hD : s.radius = real D) (going : GoesOn problem options s)
    (left : trial.isAccepted options = false) :
    ∃ D', (stayed options s trial).radius = real D' ∧ harsh * D ≤ D' ∧ D' ≤ mild * D := by
  have hpos : 0 ≤ D := hoptions.least_pos.le.trans (going.least_le hoptions hD)
  change ∃ D', trial.nextRadius options s.radius = real D' ∧ _
  rw [hD, Trial.nextRadius_of_rejected hoptions left]
  exact Trial.exists_reducedRadius hoptions hpos _ _

theorem Path.exists_radius_le_pow (hoptions : options.Shrinking harsh mild least)
    (hD : s₀.radius = real D) (path : Path problem options bounds s₀ trials s)
    (hleft : ∀ trial ∈ trials, trial.isAccepted options = false) :
    ∃ D', s.radius = real D' ∧ D' ≤ mild ^ trials.length * D := by
  induction path with
  | start => exact ⟨D, hD, by simp⟩
  | accepted _ _ _ taken _ _ =>
    exact absurd taken (ne_true_of_eq_false (hleft _ List.mem_cons_self))
  | @rejected trials s trial _ going _ left ih =>
    obtain ⟨D', hD', hle⟩ := ih fun trial h ↦ hleft trial (List.mem_cons_of_mem _ h)
    obtain ⟨D'', hD'', -, hshrunk⟩ := exists_radius_stayed hoptions hD' going left
    refine ⟨D'', hD'', ?_⟩
    calc D'' ≤ mild * D' := hshrunk
      _ ≤ mild * (mild ^ trials.length * D) := mul_le_mul_of_nonneg_left hle hoptions.mild_pos.le
      _ = mild ^ (trial :: trials).length * D := by rw [List.length_cons, pow_succ']; ring

/-- Before the last of some rejections in a row, the radius was not below the least one. -/
theorem Path.least_le_pow (hoptions : options.Shrinking harsh mild least)
    (hD : s₀.radius = real D) (path : Path problem options bounds s₀ (trial :: trials) s)
    (hleft : ∀ t ∈ trial :: trials, t.isAccepted options = false) :
    least ≤ mild ^ trials.length * D := by
  obtain ⟨s', path', going, -, -⟩ := path_cons_iff.mp path
  obtain ⟨D', hD', hle⟩ :=
    path'.exists_radius_le_pow hoptions hD fun t h ↦ hleft t (List.mem_cons_of_mem _ h)
  exact (going.least_le hoptions hD').trans hle

/-! ## Counting -/

/-- How often a radius can be reduced without getting below the least one. -/
theorem le_floor_log {k : ℕ} (hleast : 0 < least) (hmild₀ : 0 < mild) (hmild₁ : mild < 1)
    (h : least ≤ mild ^ k * D) : (k : ℤ) ≤ ⌊Real.log (D / least) / Real.log (1 / mild)⌋ := by
  have hlog : 0 < Real.log (1 / mild) := Real.log_pos (one_lt_one_div hmild₀ hmild₁)
  have hpow : (1 / mild) ^ k ≤ D / least := by
    rw [le_div_iff₀ hleast, one_div_pow, one_div_mul_eq_div, div_le_iff₀' (pow_pos hmild₀ k)]
    exact h
  rw [Int.le_floor, Int.cast_natCast, le_div_iff₀ hlog, ← Real.log_pow]
  exact Real.log_le_log (pow_pos (one_div_pos.mpr hmild₀) k) hpow

theorem Path.length_le_of_rejected (hoptions : options.Shrinking harsh mild least)
    (hD : s₀.radius = real D) (hle : least ≤ D) (path : Path problem options bounds s₀ trials s)
    (hleft : ∀ trial ∈ trials, trial.isAccepted options = false) :
    (trials.length : ℤ) ≤ ⌊Real.log (D / least) / Real.log (1 / mild)⌋ + 1 := by
  have hfloor : ∀ k : ℕ, least ≤ mild ^ k * D →
      (k : ℤ) ≤ ⌊Real.log (D / least) / Real.log (1 / mild)⌋ := fun k ↦
    le_floor_log hoptions.least_pos hoptions.mild_pos hoptions.mild_lt_one
  cases trials with
  | nil =>
    have hzero := hfloor 0 (by simpa using hle)
    rw [List.length_nil]
    omega
  | cons trial trials =>
    have hlast := hfloor trials.length (path.least_le_pow hoptions hD hleft)
    rw [List.length_cons, Nat.cast_succ]
    omega

theorem Path.eq_nil_of_lt (hoptions : options.Shrinking harsh mild least)
    (hD : s₀.radius = real D) (hlt : D < least) (path : Path problem options bounds s₀ trials s)
    (hleft : ∀ trial ∈ trials, trial.isAccepted options = false) : trials = [] := by
  cases trials with
  | nil => rfl
  | cons trial trials =>
    have hle := path.least_le_pow hoptions hD hleft
    have hpow : 0 < mild ^ trials.length := pow_pos hoptions.mild_pos _
    have hD₀ : 0 < D := (mul_pos_iff_of_pos_left hpow).mp (hoptions.least_pos.trans_le hle)
    have hshrunk : mild ^ trials.length * D ≤ D := mul_le_of_le_one_left hD₀.le
      (pow_le_one₀ hoptions.mild_pos.le hoptions.mild_lt_one.le)
    exact absurd (hle.trans hshrunk) hlt.not_ge

/-! ## Searches without an end -/

/-- The radius stays real as long as the accepted trials have real lengths. -/
theorem Path.isReal_radius_of_length (hoptions : options.Shrinking harsh mild least)
    (hexcellent : options.excellentGrowth.IsReal) (hgood : options.goodGrowth.IsReal)
    (hradius : s₀.radius.IsReal)
    (hlength : ∀ {trials s trial}, Path problem options bounds s₀ trials s →
      attempt problem options bounds s = .ok trial → trial.isAccepted options = true →
        trial.length.IsReal)
    (path : Path problem options bounds s₀ trials s) : s.radius.IsReal := by
  induction path with
  | start => exact hradius
  | rejected _ going _ left ih =>
    obtain ⟨D, hD⟩ := ih
    obtain ⟨D', hD', -⟩ := exists_radius_stayed hoptions hD going left
    exact ⟨D', hD'⟩
  | accepted path _ proposed taken arrived ih =>
    rw [radius_of_moved arrived]
    exact Trial.isReal_nextRadius_of_accepted hexcellent hgood ih (hlength path proposed taken)
      taken

/-- Where an accepted trial comes from, the problem is real, and so is the point. -/
theorem isReal_of_accepted (hproblem : problem.RealWhereFinite)
    (hratio : options.acceptableRatio.IsReal) (hz : Vec.IsReal s.point.iterate)
    (hv : Vec.IsReal v ∨ v = s.point.multipliers) (hfresh : s.point.Fresh problem v)
    (proposed : attempt problem options bounds s = .ok trial)
    (taken : trial.isAccepted options = true) :
    problem.RealAt s.point.iterate ∧ s.point.IsReal := by
  have hfinite :=
    (finiteAt_of_accepted ieeeRules (isFinite_iff.mpr hratio) hfresh proposed taken).2
  have hreal := hproblem _ hz hfinite
  exact ⟨hreal, Point.isReal_of_realAt hreal hz hv hfresh⟩

theorem isReal_or_eq_multipliers (hv : Vec.IsReal v) (trials : List (Trial Extended))
    (s : State Extended) :
    Vec.IsReal ((lastAccepted options trials).elim v fun _ ↦ s.point.multipliers)
      ∨ (lastAccepted options trials).elim v (fun _ ↦ s.point.multipliers)
        = s.point.multipliers := by
  cases lastAccepted options trials with
  | none => exact .inl hv
  | some _ => exact .inr rfl

/-- The iterates stay real, although the problem need not be real everywhere. -/
theorem Path.isReal_iterate (hproblem : problem.RealWhereFinite)
    (hratio : options.acceptableRatio.IsReal) (hbounds : bounds.AdmitsReals)
    (hz : Vec.IsReal s₀.point.iterate) (hv : Vec.IsReal v) (hfresh : s₀.point.Fresh problem v)
    (path : Path problem options bounds s₀ trials s) : Vec.IsReal s.point.iterate := by
  induction path with
  | start => exact hz
  | rejected _ _ _ _ ih => exact ih
  | accepted path _ proposed taken arrived ih =>
    obtain ⟨hreal, hpoint⟩ := isReal_of_accepted hproblem hratio ih
      (isReal_or_eq_multipliers hv _ _) (path.fresh hfresh) proposed taken
    rw [Point.iterate_of_complete (moved_eq_ok arrived).1]
    exact Trial.isReal_next_of_realAt hreal ih (isReal_step_of_attempt hbounds hpoint proposed)
      (evaluated_of_attempt proposed)

theorem Path.isReal_length_of_accepted (hproblem : problem.RealWhereFinite)
    (hratio : options.acceptableRatio.IsReal) (hbounds : bounds.AdmitsReals)
    (hz : Vec.IsReal s₀.point.iterate) (hv : Vec.IsReal v) (hfresh : s₀.point.Fresh problem v)
    (path : Path problem options bounds s₀ trials s)
    (proposed : attempt problem options bounds s = .ok trial)
    (taken : trial.isAccepted options = true) : trial.length.IsReal := by
  have hiterate := path.isReal_iterate hproblem hratio hbounds hz hv hfresh
  obtain ⟨-, hpoint⟩ := isReal_of_accepted hproblem hratio hiterate
    (isReal_or_eq_multipliers hv _ _) (path.fresh hfresh) proposed taken
  rw [length_of_attempt proposed]
  exact (isReal_step_of_attempt hbounds hpoint proposed).norm

/-- A search that can be continued for any number of rounds accepts any number of trials. -/
theorem exists_path_accepts (hoptions : options.Shrinking harsh mild least)
    (hradius : ∀ {trials s}, Path problem options bounds s₀ trials s → s.radius.IsReal)
    (hlong : ∀ n, ∃ trials s, Path problem options bounds s₀ trials s ∧ trials.length = n)
    (N : ℕ) : ∃ trials s, Path problem options bounds s₀ trials s
      ∧ N ≤ trials.countP (·.isAccepted options) := by
  induction N with
  | zero => exact ⟨[], s₀, .start, Nat.zero_le _⟩
  | succ N ih =>
    obtain ⟨trials, s, path, hcount⟩ := ih
    obtain ⟨D, hD⟩ := hradius path
    -- The path is continued for more rounds than there can be rejections in a row.
    obtain ⟨trials', s', path', hlength⟩ := hlong
      (trials.length + (⌊Real.log (D / least) / Real.log (1 / mild)⌋.toNat + 2))
    obtain ⟨more, rfl, hmore⟩ := path'.exists_append path (by omega)
    rw [List.length_append] at hlength
    refine ⟨more ++ trials, s', path', ?_⟩
    rw [List.countP_append]
    suffices 0 < more.countP (·.isAccepted options) by omega
    by_contra hnone
    have hleft : ∀ trial ∈ more, trial.isAccepted options = false := fun trial hmem ↦
      Bool.eq_false_of_not_eq_true
        (List.countP_eq_zero.mp (Nat.eq_zero_of_not_pos hnone) trial hmem)
    by_cases hle : least ≤ D
    · have hbound := hmore.length_le_of_rejected hoptions hD hle hleft
      omega
    · have hnil := hmore.eq_nil_of_lt hoptions hD (not_le.mp hle) hleft
      rw [hnil, List.length_nil] at hlength
      omega

/-- What keeps the radius of a search real: only positive ratios suffice, or the start and the
functions of the problem are real as far as the objective and the constraints are finite. -/
def StaysMeasured (problem : InnerProblem Extended) (options : TrustRegionOptions Extended)
    (bounds : StepBox Extended) (z v : Vec Extended) : Prop :=
  0 < options.acceptableRatio
    ∨ problem.RealWhereFinite ∧ bounds.AdmitsReals ∧ Vec.IsReal z ∧ Vec.IsReal v

theorem StaysMeasured.isReal_radius (h : StaysMeasured problem options bounds z v)
    (hoptions : options.Shrinking harsh mild least)
    (hexcellent : options.excellentGrowth.IsReal) (hgood : options.goodGrowth.IsReal)
    (hradius : radius.IsReal) (hs₀ : start problem z v radius penalty = .ok s₀)
    (path : Path problem options bounds s₀ trials s) : s.radius.IsReal := by
  obtain ⟨hiterate, hfresh, -⟩ := start_eq_ok hs₀
  rw [← radius_of_start hs₀] at hradius
  refine path.isReal_radius_of_length hoptions hexcellent hgood hradius ?_
  obtain hpos | ⟨hproblem, hbounds, hz, hv⟩ := h
  · exact fun _ proposed taken ↦
      (judged_of_attempt proposed).isReal_length hoptions.acceptableRatio hpos taken
  · rw [← hiterate] at hz
    exact fun path proposed taken ↦ path.isReal_length_of_accepted hproblem
      hoptions.acceptableRatio hbounds hz hv hfresh proposed taken

/-- **Rejections end.** Whatever the problem is, a rejected trial multiplies the radius by a factor
between the two of the options, and an accepted one does not make it smaller. So the number of
rejections in a row is bounded by the logarithm of the radius in units of the least one, and there
are none if the radius is smaller than that. A search that never ends accepts more trials than any
number, provided that its radius stays real. -/
theorem rejections_end (hoptions : options.Shrinking harsh mild least) :
    (∀ (s : State Extended) (trial : Trial Extended) (j : Journal Extended) (D : ℝ),
      s.radius = real D → GoesOn problem options s →
        (trial.isAccepted options = false → ∃ s' D',
          ((settle problem options s trial).run j).1 = .ok s' ∧ s'.radius = real D'
          ∧ harsh * D ≤ D' ∧ D' ≤ mild * D)
        ∧ (trial.isAccepted options = true → ∀ s',
          ((settle problem options s trial).run j).1 = .ok s' → real D ≤ s'.radius))
    ∧ (∀ (s : State Extended) (trials : List (Trial Extended)) (s' : State Extended) (D : ℝ),
      s.radius = real D → Path problem options bounds s trials s' →
        (∀ trial ∈ trials, trial.isAccepted options = false) →
          (least ≤ D →
            (trials.length : ℤ) ≤ ⌊Real.log (D / least) / Real.log (1 / mild)⌋ + 1)
          ∧ (D < least → trials = []))
    ∧ ∀ z v radius penalty, options.excellentGrowth.IsReal → options.goodGrowth.IsReal →
      StaysMeasured problem options bounds z v → radius.IsReal →
        (∀ limit,
          (solve problem options bounds z v radius penalty limit).1 = .error .unfinished) →
            ∀ N, ∃ s₀ trials s, start problem z v radius penalty = .ok s₀
              ∧ Path problem options bounds s₀ trials s
              ∧ N ≤ trials.countP (·.isAccepted options) := by
  refine ⟨fun s trial j D hD going ↦ ⟨fun left ↦ ?_, fun taken s' hs' ↦ ?_⟩,
    fun s trials s' D hD path hleft ↦
      ⟨fun hle ↦ path.length_le_of_rejected hoptions hD hle hleft,
        fun hlt ↦ path.eq_nil_of_lt hoptions hD hlt hleft⟩, ?_⟩
  · obtain ⟨D', hD', hshrunk⟩ := exists_radius_stayed hoptions hD going left
    refine ⟨_, D', ?_, hD', hshrunk⟩
    rw [outcome_settle, settled_of_rejected left]
  · rw [outcome_settle] at hs'
    rw [radius_of_settled hs', hD]
    exact Trial.le_nextRadius_of_accepted taken
  · intro z v radius penalty hexcellent hgood hmeasured hradius hendless N
    obtain ⟨s₀, -, -, hs₀, -⟩ := exists_path_of_solve_unfinished (hendless 0)
    have hlong : ∀ n, ∃ trials s, Path problem options bounds s₀ trials s ∧ trials.length = n := by
      intro n
      obtain ⟨s₁, trials, s, hs₁, path, hlength⟩ := exists_path_of_solve_unfinished (hendless n)
      obtain rfl := Except.ok.inj (hs₀.symm.trans hs₁)
      exact ⟨trials, s, path, hlength⟩
    obtain ⟨trials, s, path, hcount⟩ := exists_path_accepts hoptions
      (hmeasured.isReal_radius hoptions hexcellent hgood hradius hs₀) hlong N
    exact ⟨s₀, trials, s, hs₀, path, hcount⟩

/-! ### A search that ends -/

theorem shaped_rootDescent : rootDescent.Shaped fun _ ↦ False where
  pivots := shaped_descent.pivots
  objective z hz := by
    obtain ⟨a, ha, -⟩ := (shaped_descent.objective z hz).exists_ok
    change Ensures _ _ (Scalar.sqrt <$> descent.objective z)
    rw [ha]
    exact Ensures.ok trivial
  gradient := shaped_descent.gradient
  constraints := shaped_descent.constraints
  jacobian := shaped_descent.jacobian
  hessian := shaped_descent.hessian
  scaling := shaped_descent.scaling

theorem isAccepted_rootDescent (hs₀ : start rootDescent [real (-1)] [] radius penalty = .ok s₀)
    (path : Path rootDescent {} bounds s₀ trials s)
    (proposed : attempt rootDescent {} bounds s = .ok trial) : trial.isAccepted {} = false := by
  obtain ⟨hz, hfresh, -⟩ := start_eq_ok hs₀
  by_contra htaken
  rw [Bool.not_eq_false] at htaken
  have hfinite := path.finiteAt_of_accepted ieeeRules rfl hfresh proposed htaken
  rw [hz] at hfinite
  exact not_finiteAt_rootDescent hfinite

theorem forall_isAccepted_rootDescent
    (hs₀ : start rootDescent [real (-1)] [] radius penalty = .ok s₀)
    (path : Path rootDescent {} bounds s₀ trials s) :
    ∀ trial ∈ trials, trial.isAccepted {} = false := by
  induction path with
  | start => exact List.forall_mem_nil _
  | accepted path _ proposed taken _ _ =>
    exact absurd taken (ne_true_of_eq_false (isAccepted_rootDescent hs₀ path proposed))
  | rejected _ _ _ left ih => exact List.forall_mem_cons.mpr ⟨left, ih⟩

theorem floor_log_default_lt :
    ⌊Real.log (1 / 1e-8) / Real.log (1 / 0.5)⌋ < (27 : ℤ) := by
  have hlog : 0 < Real.log (1 / 0.5) := Real.log_pos (by norm_num)
  have hpow : Real.log (1 / 1e-8) < Real.log ((1 / 0.5) ^ 27) :=
    Real.log_lt_log (by norm_num) (by norm_num)
  rw [Real.log_pow] at hpow
  rw [Int.floor_lt, div_lt_iff₀ hlog]
  exact hpow

/-! ### A search that does not end -/

/-- A plateau, on which every step is as good as any other one. -/
noncomputable def plateau : InnerProblem Extended :=
  { descent with
    objective := fun _ ↦ .ok 0
    gradient := fun _ ↦ .ok [0] }

/-- The options of a search that takes a step even if it changes nothing. -/
noncomputable def wandering : TrustRegionOptions Extended := { acceptableRatio := real (-1) }

theorem realValued_plateau : plateau.RealValued where
  gradient := by
    rintro z g - ⟨⟩
    exact Vec.IsReal.replicate isReal_zero 1
  constraints := realValued_descent.constraints
  jacobian := realValued_descent.jacobian
  hessian := realValued_descent.hessian
  scaling := realValued_descent.scaling

theorem shaped_plateau : plateau.Shaped fun _ ↦ False where
  pivots := shaped_descent.pivots
  objective _ _ := Ensures.ok trivial
  gradient _ _ := Ensures.ok rfl
  constraints := shaped_descent.constraints
  jacobian := shaped_descent.jacobian
  hessian := shaped_descent.hessian
  scaling := shaped_descent.scaling

theorem shrinking_wandering : wandering.Shrinking 0.1 0.5 1e-8 :=
  { TrustRegionOptions.shrinking_default with
    acceptableRatio := isReal_real (-1)
    acceptable_lt_good := real_lt.mpr (by norm_num) }

theorem ratio_plateau (hpoint : s.point.IsReal) (hfresh : s.point.Fresh plateau v)
    (hpenalty : s.penalty = real 1)
    (proposed : attempt plateau wandering (.unbounded 1) s = .ok trial) :
    trial.ratio = real 0 ∧ trial.penalty = real 1 := by
  have hstep := isReal_step_of_attempt (admitsReals_unbounded 1) hpoint proposed
  have hjudged := judged_of_attempt proposed
  have hevaluated := evaluated_of_attempt proposed
  obtain ⟨g, hg, hpos⟩ := hjudged.exists_gain hpoint hstep
  have hmodel : trial.model = real 0 := by
    obtain ⟨image, curvature, slope, himage, hcurvature, hslope, hmodel⟩ := hjudged.model
    rw [← Except.ok.inj hfresh.hessian] at himage
    rw [← Except.ok.inj hfresh.gradient] at hslope
    rw [hmodel]
    generalize trial.step = step at hstep himage hcurvature hslope
    -- The gradient has one entry, so the step has one, too.
    obtain _ | ⟨a, _ | ⟨b, rest⟩⟩ := step
    · cases hslope
    · obtain ⟨t, rfl⟩ := hstep a List.mem_cons_self
      obtain rfl := Except.ok.inj himage
      have hflat : curvature = real (0 + 0 * t * t) := (Except.ok.inj hcurvature).symm
      have hlevel : slope = real (0 + 0 * t) := (Except.ok.inj hslope).symm
      simp [hflat, hlevel]
    · cases hslope
  have hraised : trial.penalty = real 1 := by
    rw [hjudged.penalty, hmodel, Trial.raisedPenalty, zero_eq, if_neg (not_lt_self _),
      hpenalty]
  have hpredicted : trial.predicted = real g := by
    simp [hjudged.predicted, hmodel, hraised, hg]
  have hactual : trial.actual = real 0 := by
    have hresidual := Except.ok.inj (hfresh.residual.symm.trans hevaluated.residual)
    have hobjective := Except.ok.inj (hfresh.objective.symm.trans hevaluated.objective)
    have hobjective' : trial.objective = 0 := (Except.ok.inj hevaluated.objective).symm
    obtain ⟨b, hb⟩ := (hresidual ▸ hpoint.residual : Vec.IsReal trial.residual).norm
    simp [hjudged.actual, hresidual, hobjective, hobjective', hraised, hb]
  refine ⟨?_, hraised⟩
  have hquotient : trial.quotient = real 0 := by
    rw [Trial.quotient, hactual, hpredicted, real_div hpos.ne', zero_div]
  rw [Trial.ratio, hquotient, if_pos (isFinite_real 0)]

theorem radius_and_penalty_plateau
    (hs₀ : start plateau [0] [] (real 1) (real 1) = .ok s₀)
    (path : Path plateau wandering (.unbounded 1) s₀ trials s) :
    s.radius = real 1 ∧ s.penalty = real 1 := by
  have hz : Vec.IsReal [0] := Vec.IsReal.replicate isReal_zero 1
  have h₀ := isReal_start realValued_plateau hz Vec.isReal_nil hs₀
  have hfresh := (start_eq_ok hs₀).2.1
  have hratio : ∀ {trials s trial}, Path plateau wandering (.unbounded 1) s₀ trials s →
      s.penalty = real 1 → attempt plateau wandering (.unbounded 1) s = .ok trial →
        trial.ratio = real 0 ∧ trial.penalty = real 1 := fun path hpenalty proposed ↦
    ratio_plateau (path.isReal_of_admitsReals realValued_plateau (admitsReals_unbounded 1) h₀)
      (path.fresh hfresh) hpenalty proposed
  induction path with
  | start => exact ⟨radius_of_start hs₀, (penalized_start realValued_plateau hz Vec.isReal_nil
      (isReal_real 1) (real_lt.mpr one_pos) hs₀).2⟩
  | accepted path _ proposed _ arrived ih =>
    obtain ⟨hzero, hpenalty⟩ := hratio path ih.2 proposed
    rw [radius_of_moved arrived, penalty_of_moved arrived, Trial.nextRadius, hzero]
    have hexcellent : ¬wandering.excellentRatio ≤ real 0 := by
      change ¬(0.9 : ℝ) ≤ 0
      norm_num
    have hgood : ¬wandering.goodRatio ≤ real 0 := by
      change ¬(0.3 : ℝ) ≤ 0
      norm_num
    have hless : ¬real 0 < wandering.acceptableRatio := by
      change ¬(0 : ℝ) < -1
      norm_num
    rw [if_neg hexcellent, if_neg hgood, if_neg hless]
    exact ⟨ih.1, hpenalty⟩
  | rejected path _ proposed left ih =>
    have hleft := of_decide_eq_false left
    rw [(hratio path ih.2 proposed).1] at hleft
    exact absurd (real_le.mpr (by norm_num)) hleft

theorem solve_plateau (limit : ℕ) :
    (solve plateau wandering (.unbounded 1) [0] [] (real 1) (real 1) limit).1
      = .error .unfinished := by
  obtain ⟨s₀, hs₀⟩ : ∃ s₀, start plateau [0] [] (real 1) (real 1) = .ok s₀ := ⟨_, rfl⟩
  have hdim : (StepBox.unbounded 1 : StepBox Extended).dim = plateau.dim := rfl
  obtain ⟨failure, hfailed, -⟩ | ⟨s₁, hs₁, hconclusion⟩ :=
    solve_concludes_of_dim wandering hdim [0] [] (real 1) (real 1) limit
  · rw [hs₀] at hfailed
    cases hfailed
  obtain rfl := Except.ok.inj (hs₀.symm.trans hs₁)
  have h₀ := shaped_start shaped_plateau rfl rfl hs₀
  generalize solve plateau wandering (.unbounded 1) [0] [] (real 1) (real 1) limit = r
    at hconclusion ⊢
  obtain ⟨outcome, journal⟩ := r
  dsimp only at hconclusion ⊢
  generalize journal.iterate = w at hconclusion
  cases hconclusion with
  | stopped path stop =>
    obtain hstop | hradius := stop
    · cases hstop
    · rw [(radius_and_penalty_plateau hs₀ path).1] at hradius
      exact absurd hradius (not_lt_of_le (real_le.mpr (by norm_num)))
  | unfinished path => rfl
  | attemptFault path _ proposed =>
    exact ((ensures_attempt shaped_plateau hdim (path.shaped shaped_plateau hdim
      h₀)).allowed_of_eq_error proposed).elim
  | @moveFailure trials s trial failure path _ _ _ lost =>
    obtain ⟨point, hpoint⟩ : ∃ point,
      Point.complete plateau trial.next trial.objective trial.residual none = .ok point := ⟨_, rfl⟩
    rw [moved_eq_error lost] at hpoint
    cases hpoint

/-- At an iterate that has no root, a search ends within 28 rounds, since it can only reject. The
search on the plateau never ends, and it accepts any number of trials. -/
theorem rootDescent_ends_and_plateau_accepts :
    (∃ s₀ trial, start rootDescent [real (-1)] [] (real 1) (real 1) = .ok s₀
      ∧ attempt rootDescent {} (.unbounded 1) s₀ = .ok trial
      ∧ ∀ j, ∃ s' D', ((settle rootDescent {} s₀ trial).run j).1 = .ok s' ∧ s'.radius = real D'
        ∧ 0.1 ≤ D' ∧ D' ≤ 0.5)
    ∧ (solve rootDescent {} (.unbounded 1) [real (-1)] [] (real 1) (real 1) 28).1
      ≠ .error .unfinished
    ∧ ∀ N, ∃ s₀ trials s, start plateau [0] [] (real 1) (real 1) = .ok s₀
      ∧ Path plateau wandering (.unbounded 1) s₀ trials s
      ∧ N ≤ trials.countP (·.isAccepted wandering) := by
  obtain ⟨hround, hrejections, -⟩ := @rejections_end {} 0.1 0.5 1e-8 rootDescent (.unbounded 1)
    TrustRegionOptions.shrinking_default
  refine ⟨?_, fun hunfinished ↦ ?_, ?_⟩
  · obtain ⟨s₀, hs₀, hradius⟩ : ∃ s₀, start rootDescent [real (-1)] [] (real 1) (real 1) = .ok s₀
      ∧ s₀.radius = real 1 := ⟨_, rfl, rfl⟩
    have hgoing : GoesOn rootDescent {} s₀ := by
      refine ⟨rfl, not_lt_of_le ?_⟩
      rw [hradius]
      exact real_le.mpr (by norm_num)
    have hattempt : Ensures (fun _ ↦ False) (fun trial ↦ trial.next.length = 1)
        (attempt rootDescent {} (.unbounded 1) s₀) :=
      ensures_attempt shaped_rootDescent rfl (shaped_start shaped_rootDescent rfl rfl hs₀)
    obtain ⟨trial, proposed, -⟩ := hattempt.exists_ok
    refine ⟨s₀, trial, hs₀, proposed, fun j ↦ ?_⟩
    obtain ⟨s', D', hs', hD', hharsh, hmild⟩ := (hround s₀ trial j 1 hradius hgoing).1
      (isAccepted_rootDescent hs₀ .start proposed)
    rw [mul_one] at hharsh hmild
    exact ⟨s', D', hs', hD', hharsh, hmild⟩
  · obtain ⟨s₀, trials, s, hs₀, path, hlength⟩ := exists_path_of_solve_unfinished hunfinished
    have hbound := (hrejections s₀ trials s 1 (radius_of_start hs₀) path
      (forall_isAccepted_rootDescent hs₀ path)).1 (by norm_num)
    have hfloor := floor_log_default_lt
    omega
  · exact (@rejections_end wandering 0.1 0.5 1e-8 plateau (.unbounded 1) shrinking_wandering).2.2
      [0] [] (real 1) (real 1) (isReal_real _) (isReal_real _)
      (.inr ⟨realValued_plateau.realWhereFinite, admitsReals_unbounded 1,
        Vec.IsReal.replicate isReal_zero 1, Vec.isReal_nil⟩) (isReal_real 1) solve_plateau

end TrustRegion

end LogBarrier
