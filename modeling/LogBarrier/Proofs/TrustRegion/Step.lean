import LogBarrier.Proofs.TrustRegion.Normal
import LogBarrier.Proofs.TrustRegion.Rounds
import LogBarrier.Proofs.TrustRegion.Tangential

/-!
# Trial steps in a box

A trial step is the sum of two parts. The normal step is in a box of which the options say how large
a share of the given one it is, and the tangential step is in the box that is shifted by the normal
step. Both of these boxes admit the origin if the given one does, so the two parts exist, and their
sum is in the given box.

Neither the radius nor the penalty has anything to do with it.
-/

namespace LogBarrier

open Extended

/-! ## Sharing and shifting a bound -/

/-- What the normal step may use of the bounds is a proper share of them. -/
def TrustRegionOptions.SharesBounds (options : TrustRegionOptions Extended) : Prop :=
  ∃ σ : ℝ, options.normalBoundsShare = real σ ∧ 0 < σ ∧ σ ≤ 1

theorem TrustRegionOptions.sharesBounds_default :
    TrustRegionOptions.SharesBounds ({} : TrustRegionOptions Extended) :=
  ⟨0.5, ofScientific_eq 5 true 1, by norm_num, by norm_num⟩

namespace Extended

variable {l u : Extended} {σ x y : ℝ}

theorem share_le_zero (hσ : 0 < σ) (hl : l ≤ 0) : l * real σ ≤ 0 := by
  rcases le_real_iff.mp hl with rfl | ⟨y, hy, rfl⟩
  · rw [negInf_mul_real hσ]
    exact negInf_le_real 0
  · rw [real_mul]
    exact real_le.mpr (mul_nonpos_of_nonpos_of_nonneg hy hσ.le)

theorem zero_le_share (hσ : 0 < σ) (hu : 0 ≤ u) : 0 ≤ u * real σ := by
  rcases real_le_iff.mp hu with rfl | ⟨y, hy, rfl⟩
  · rw [posInf_mul_real hσ]
    exact real_le_posInf 0
  · rw [real_mul]
    exact real_le.mpr (mul_nonneg hy hσ.le)

/-- A lower bound is still negative after a shift by something above a share of it. -/
theorem sub_le_zero_of_share_le (hσ : σ ≤ 1) (hl : l ≤ 0) (h : l * real σ ≤ real x) :
    l - real x ≤ 0 := by
  rcases le_real_iff.mp hl with rfl | ⟨y, hy, rfl⟩
  · exact negInf_le_real 0
  · rw [real_mul, real_le] at h
    rw [real_sub]
    have hy' : y ≤ y * σ := le_mul_of_le_one_right hy hσ
    exact real_le.mpr (by linarith)

theorem zero_le_sub_of_le_share (hσ : σ ≤ 1) (hu : 0 ≤ u) (h : real x ≤ u * real σ) :
    0 ≤ u - real x := by
  rcases real_le_iff.mp hu with rfl | ⟨y, hy, rfl⟩
  · exact real_le_posInf 0
  · rw [real_mul, real_le] at h
    rw [real_sub]
    have hy' : y * σ ≤ y := mul_le_of_le_one_right hy hσ
    exact real_le.mpr (by linarith)

theorem le_add_of_sub_le (hl : l ≤ 0) (h : l - real x ≤ real y) : l ≤ real (x + y) := by
  rcases le_real_iff.mp hl with rfl | ⟨z, -, rfl⟩
  · exact negInf_le_real _
  · rw [real_sub, real_le] at h
    exact real_le.mpr (by linarith)

theorem add_le_of_le_sub (hu : 0 ≤ u) (h : real y ≤ u - real x) : real (x + y) ≤ u := by
  rcases real_le_iff.mp hu with rfl | ⟨z, -, rfl⟩
  · exact real_le_posInf _
  · rw [real_sub, real_le] at h
    exact real_le.mpr (by linarith)

end Extended

namespace Vec

variable {x y lower upper : Vec Extended} {σ : ℝ}

theorem AdmitZero.share (hσ : 0 < σ) (h : AdmitZero lower upper) :
    AdmitZero (scale lower (real σ)) (scale upper (real σ)) := by
  constructor
  · intro a ha
    obtain ⟨l, hl, rfl⟩ := List.mem_map.mp ha
    exact share_le_zero hσ (h.lower_le l hl)
  · intro a ha
    obtain ⟨u, hu, rfl⟩ := List.mem_map.mp ha
    exact zero_le_share hσ (h.le_upper u hu)

theorem Fits.of_share (h : Fits x (scale lower (real σ)) (scale upper (real σ))) {i : ℕ}
    {a l u : Extended} (ha : x[i]? = some a) (hl : lower[i]? = some l) (hu : upper[i]? = some u) :
    l * real σ ≤ a ∧ a ≤ u * real σ :=
  h i a _ _ ha (by rw [scale, List.getElem?_map, hl]; rfl)
    (by rw [scale, List.getElem?_map, hu]; rfl)

theorem exists_entry {β γ : Type} {x : List β} {y : List γ} (h : x.length = y.length) {i : ℕ}
    {a : β} (ha : x[i]? = some a) : ∃ b, y[i]? = some b := by
  obtain ⟨hi, -⟩ := List.getElem?_eq_some_iff.mp ha
  exact ⟨y[i], List.getElem?_eq_getElem (h ▸ hi)⟩

/-- The bounds that are left to a step after a first part within a share of them. -/
theorem AdmitZero.shifted (hσ : σ ≤ 1) (h : AdmitZero lower upper)
    (hlength : lower.length = upper.length) (hx : IsReal x)
    (hfits : Fits x (scale lower (real σ)) (scale upper (real σ))) :
    AdmitZero (List.zipWith (· - ·) lower x) (List.zipWith (· - ·) upper x) := by
  constructor
  · intro b hb
    obtain ⟨i, hi⟩ := List.mem_iff_getElem?.mp hb
    obtain ⟨l, a, hl, ha, rfl⟩ := List.getElem?_zipWith_eq_some.mp hi
    obtain ⟨u, hu⟩ := exists_entry hlength hl
    obtain ⟨t, rfl⟩ := hx a (List.mem_of_getElem? ha)
    exact sub_le_zero_of_share_le hσ (h.lower_le l (List.mem_of_getElem? hl))
      (hfits.of_share ha hl hu).1
  · intro b hb
    obtain ⟨i, hi⟩ := List.mem_iff_getElem?.mp hb
    obtain ⟨u, a, hu, ha, rfl⟩ := List.getElem?_zipWith_eq_some.mp hi
    obtain ⟨l, hl⟩ := exists_entry hlength.symm hu
    obtain ⟨t, rfl⟩ := hx a (List.mem_of_getElem? ha)
    exact zero_le_sub_of_le_share hσ (h.le_upper u (List.mem_of_getElem? hu))
      (hfits.of_share ha hl hu).2

theorem Fits.of_shifted (h : AdmitZero lower upper) (hx : IsReal x) (hy : IsReal y)
    (hfits : Fits y (List.zipWith (· - ·) lower x) (List.zipWith (· - ·) upper x)) :
    Fits (List.zipWith (· + ·) x y) lower upper := by
  intro i c l u hc hl hu
  obtain ⟨a, b, ha, hb, rfl⟩ := List.getElem?_zipWith_eq_some.mp hc
  -- The tangential entry is compared with what the normal entry has left of the bounds.
  obtain ⟨hlower, hupper⟩ := hfits i b (l - a) (u - a) hb
    (List.getElem?_zipWith_eq_some.mpr ⟨l, a, hl, ha, rfl⟩)
    (List.getElem?_zipWith_eq_some.mpr ⟨u, a, hu, ha, rfl⟩)
  obtain ⟨r, rfl⟩ := hx a (List.mem_of_getElem? ha)
  obtain ⟨t, rfl⟩ := hy b (List.mem_of_getElem? hb)
  exact ⟨le_add_of_sub_le (h.lower_le l (List.mem_of_getElem? hl)) hlower,
    add_le_of_le_sub (h.le_upper u (List.mem_of_getElem? hu)) hupper⟩

theorem yields_combine_eq {f : Extended → Extended → Extended} :
    Yields (fun z ↦ z = List.zipWith f x y ∧ x.length = y.length) (combine f x y) := by
  rw [combine]
  split
  next h => exact Ensures.ok ⟨rfl, h⟩
  next => exact Ensures.error (by decide)

end Vec

/-! ## Real points -/

structure Point.IsReal (point : Point Extended) : Prop where
  iterate : Vec.IsReal point.iterate
  residual : Vec.IsReal point.residual
  gradient : Vec.IsReal point.gradient
  jacobian : point.jacobian.IsReal
  projector : point.projector.IsReal
  multipliers : Vec.IsReal point.multipliers
  hessian : point.hessian.IsReal

def StepBox.AdmitsZero (bounds : StepBox Extended) : Prop := Vec.AdmitZero bounds.lower bounds.upper

/-- The step has an entry for each pair of bounds, which lies between them. -/
def StepBox.Contains (bounds : StepBox Extended) (step : Vec Extended) : Prop :=
  step.length = bounds.dim ∧ Vec.Fits step bounds.lower bounds.upper

namespace Trial

variable {options : TrustRegionOptions Extended} {bounds : StepBox Extended}
  {point : Point Extended} {normal : Vec Extended}

theorem yields_normalStep (hshare : options.SharesBounds) (hbounds : bounds.AdmitsZero)
    (hpoint : point.IsReal) (radius : Extended) :
    Yields (fun r ↦ Vec.IsReal r.1
        ∧ Vec.Fits r.1 (Vec.scale bounds.lower options.normalBoundsShare)
          (Vec.scale bounds.upper options.normalBoundsShare))
      (normalStep options bounds point radius) := by
  obtain ⟨σ, hσ, hpos, -⟩ := hshare
  rw [normalStep, hσ]
  exact NormalStep.yields_compute hpoint.jacobian hpoint.projector hpoint.residual
    (Vec.AdmitZero.share hpos hbounds) _

theorem tangentialModel_eq_ok {radius : Extended} {model : TangentialStep.Model Extended}
    (h : tangentialModel bounds point radius normal = .ok model) :
    bounds.dim = normal.length ∧ model.hessian = point.hessian ∧ model.projector = point.projector
      ∧ model.radius = remainingRadius radius normal
      ∧ model.lower = List.zipWith (· - ·) bounds.lower normal
      ∧ model.upper = List.zipWith (· - ·) bounds.upper normal := by
  obtain ⟨lower, hlower, h⟩ := bind_eq_ok_iff.mp h
  obtain ⟨upper, hupper, h⟩ := bind_eq_ok_iff.mp h
  cases h
  obtain ⟨hlength, rfl⟩ := Vec.combine_eq_ok_iff.mp hlower
  obtain ⟨-, rfl⟩ := Vec.combine_eq_ok_iff.mp hupper
  exact ⟨hlength, rfl, rfl, rfl, rfl, rfl⟩

/-- The rule for a tangential step: what holds of all steps for the model holds of it. -/
theorem yields_tangentialStep_of {radius : Extended}
    {Q : Vec Extended × TangentialReport → Prop} (hpoint : point.IsReal)
    (hnormal : Vec.IsReal normal)
    (h : ∀ model gradient, tangentialModel bounds point radius normal = .ok model →
      Vec.IsReal gradient →
        Yields Q (TangentialStep.compute model gradient (Vec.zeros point.residual.length))) :
    Yields Q (tangentialStep bounds point radius normal) := by
  have hmodel : Yields (fun _ ↦ True) (tangentialModel bounds point radius normal) :=
    Vec.yields_combine_eq.bind fun _ _ ↦ Vec.yields_combine_eq.bind fun _ _ ↦ Ensures.pure trivial
  exact (Operator.yields_apply hpoint.hessian hnormal).bind fun image himage ↦
    (Vec.yields_add himage hpoint.gradient).bind fun gradient hgradient ↦
      hmodel.bind_eq fun model heq _ ↦ h model gradient heq hgradient

theorem yields_tangentialStep (hshare : options.SharesBounds) (hbounds : bounds.AdmitsZero)
    (hpoint : point.IsReal) (radius : Extended) (hnormal : Vec.IsReal normal)
    (hfits : Vec.Fits normal (Vec.scale bounds.lower options.normalBoundsShare)
      (Vec.scale bounds.upper options.normalBoundsShare)) :
    Yields (fun r ↦ Vec.IsReal r.1 ∧ normal.length = bounds.dim
        ∧ Vec.Fits r.1 (List.zipWith (· - ·) bounds.lower normal)
          (List.zipWith (· - ·) bounds.upper normal))
      (tangentialStep bounds point radius normal) := by
  obtain ⟨σ, hσ, -, hle⟩ := hshare
  rw [hσ] at hfits
  refine yields_tangentialStep_of hpoint hnormal fun model gradient hmodel hgradient ↦ ?_
  obtain ⟨hlength, hhessian, hprojector, -, hlower, hupper⟩ := tangentialModel_eq_ok hmodel
  have hm : model.IsReal := by
    refine ⟨hhessian ▸ hpoint.hessian, hprojector ▸ hpoint.projector, ?_⟩
    rw [hlower, hupper]
    exact Vec.AdmitZero.shifted hle hbounds bounds.length_eq hnormal hfits
  rw [← hlower, ← hupper]
  exact (TangentialStep.yields_compute hm hgradient _).mono fun r hr ↦ ⟨hr.1, hlength.symm, hr.2⟩

/-- The two parts of a step at a real point add up to a step within the bounds. -/
theorem contains_add {tangential step : Vec Extended} (hbounds : bounds.AdmitsZero)
    (hnormal : Vec.IsReal normal) (htangential : Vec.IsReal tangential)
    (hlength : normal.length = bounds.dim)
    (hfits : Vec.Fits tangential (List.zipWith (· - ·) bounds.lower normal)
      (List.zipWith (· - ·) bounds.upper normal))
    (hstep : step = List.zipWith (· + ·) normal tangential ∧ normal.length = tangential.length) :
    Vec.IsReal step ∧ bounds.Contains step := by
  obtain ⟨rfl, hlengths⟩ := hstep
  refine ⟨hnormal.zipWith htangential fun _ _ ha hb ↦ ha.add hb, ?_,
    Vec.Fits.of_shifted hbounds hnormal htangential hfits⟩
  rw [List.length_zipWith, ← hlengths, Nat.min_self, hlength]

end Trial

namespace TrustRegion

variable {problem : InnerProblem Extended} {options : TrustRegionOptions Extended}
  {bounds : StepBox Extended} {s : State Extended}

/-- Every step that can be computed at a real point consists of real numbers and is within the
bounds. -/
theorem yields_step (hshare : options.SharesBounds) (hbounds : bounds.AdmitsZero)
    (hpoint : s.point.IsReal) {Q : Trial Extended → Prop}
    (hevaluate : ∀ step, Vec.IsReal step → bounds.Contains step →
      Yields Q (Trial.evaluate problem options s.point s.penalty step)) :
    Yields Q (attempt problem options bounds s) := by
  refine (Trial.yields_normalStep hshare hbounds hpoint s.radius).bind fun normal hnormal ↦
    (Trial.yields_tangentialStep hshare hbounds hpoint s.radius hnormal.1 hnormal.2).bind
      fun tangential htangential ↦ Vec.yields_combine_eq.bind fun step hstep ↦ ?_
  obtain ⟨hreal, hcontains⟩ := Trial.contains_add hbounds hnormal.1 htangential.1 htangential.2.1
    htangential.2.2 hstep
  exact hevaluate step hreal hcontains

theorem contains_of_attempt {trial : Trial Extended} (hshare : options.SharesBounds)
    (hbounds : bounds.AdmitsZero) (hpoint : s.point.IsReal)
    (h : attempt problem options bounds s = .ok trial) :
    Vec.IsReal trial.step ∧ bounds.Contains trial.step := by
  obtain ⟨normal, tangential, hnormal, htangential, hstep, -⟩ := attempt_eq_ok h
  have hn := (Trial.yields_normalStep hshare hbounds hpoint s.radius).of_eq_ok hnormal
  have ht :=
    (Trial.yields_tangentialStep hshare hbounds hpoint s.radius hn.1 hn.2).of_eq_ok htangential
  exact Trial.contains_add hbounds hn.1 ht.1 ht.2.1 ht.2.2 (Vec.yields_combine_eq.of_eq_ok hstep)

end TrustRegion

end LogBarrier
