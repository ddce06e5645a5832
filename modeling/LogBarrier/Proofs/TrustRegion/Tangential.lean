import LogBarrier.Proofs.Exact.Factorization
import LogBarrier.Proofs.Exact.Operator
import LogBarrier.Proofs.TrustRegion.Normal
import LogBarrier.TrustRegion.Tangential

/-!
# Tangential steps in a box

A tangential step consists of real numbers and is in the box, whichever way the iteration ends.

## The invariant

All vectors of a state consist of real numbers, and the last iterate that was found inside the box
really is inside. Two quotients are formed in a round. The curvature is positive where it divides,
and so is the squared norm of the projected gradient, because the iteration ends once it is below a
positive tolerance.

## The exits

An iteration ends in the box because its result is tested against the box and replaced by an earlier
iterate if it fails the test. The only result that is not tested is the starting point, which is the
origin.
-/

namespace LogBarrier

open Extended

namespace Vec

variable {x y : Vec Extended}

theorem isReal_maxNum_of_ne {l : Extended} (r : ℝ) (hl : l ≠ posInf) :
    (Scalar.maxNum (real r) l).IsReal := by
  cases l with
  | real x => exact isReal_real _
  | posInf => exact (hl rfl).elim
  | negInf | nan => exact isReal_real r

theorem isReal_minNum_of_ne {u : Extended} (r : ℝ) (hu : u ≠ negInf) :
    (Scalar.minNum (real r) u).IsReal := by
  cases u with
  | real x => exact isReal_real _
  | negInf => exact (hu rfl).elim
  | posInf | nan => exact isReal_real r

/-- Moving a vector into a box gives a vector of real numbers, also if bounds are infinite. -/
theorem yields_clamp {lower upper : Vec Extended} (hx : IsReal x) (h : AdmitReals lower upper) :
    Yields IsReal (clamp x lower upper) := by
  refine (yields_takeExactly (fun a ha ↦ ?_) x.length).mono fun z hz ↦ hz.1
  obtain ⟨⟨b, l, u⟩, hmem, rfl⟩ := List.mem_map.mp ha
  obtain ⟨hb, hlu⟩ := List.of_mem_zip hmem
  obtain ⟨hl, hu⟩ := List.of_mem_zip hlu
  obtain ⟨r, rfl⟩ := hx b hb
  obtain ⟨t, ht⟩ := isReal_maxNum_of_ne r (h.lower_ne l hl)
  change (Scalar.minNum (Scalar.maxNum (real r) l) u).IsReal
  rw [ht]
  exact isReal_minNum_of_ne t (h.upper_ne u hu)

end Vec

namespace TangentialStep

/-- The data of the model consist of real numbers, and the box contains the origin. -/
structure Model.IsReal (model : Model Extended) : Prop where
  hessian : model.hessian.IsReal
  projector : model.projector.IsReal
  admitZero : Vec.AdmitZero model.lower model.upper

/-- The data of the model consist of real numbers, and so does what is moved into the box, which
need not contain the origin. -/
structure Model.StaysReal (model : Model Extended) : Prop where
  hessian : model.hessian.IsReal
  projector : model.projector.IsReal
  admitReals : Vec.AdmitReals model.lower model.upper

theorem Model.IsReal.staysReal {model : Model Extended} (hm : model.IsReal) : model.StaysReal :=
  ⟨hm.hessian, hm.projector, hm.admitZero.admitReals⟩

structure State.IsReal (s : State Extended) : Prop where
  x : Vec.IsReal s.x
  inside : Vec.IsReal s.inside
  gradient : Vec.IsReal s.gradient
  direction : Vec.IsReal s.direction
  image : Vec.IsReal s.image
  gradientSq : s.gradientSq.IsReal

structure State.Invariant (model : Model Extended) (s : State Extended) : Prop
    extends State.IsReal s where
  inside_fits : Vec.Fits s.inside model.lower model.upper

variable {model : Model Extended} {s : State Extended} {c : Vec Extended}

theorem yields_start_isReal (hm : model.StaysReal) (hc : Vec.IsReal c) (m : ℕ) :
    Yields (fun s ↦ s.IsReal ∧ s.inside = Vec.zeros model.projector.variableCount
        ∧ (∀ a ∈ s.x, a = 0) ∧ 0 ≤ s.gradientSq.toReal)
      (start model c (Vec.zeros m)) := by
  -- The starting point solves a system with the right hand side zero.
  refine (Projector.yields_minNormSolution_zeros hm.projector m).bind fun u hu ↦ ?_
  have hx : ∀ a ∈ Vec.neg u, a = 0 := by
    intro a ha
    obtain ⟨b, hb, rfl⟩ := List.mem_map.mp ha
    rw [hu b hb, zero_eq, real_neg, neg_zero]
  refine (Operator.yields_apply hm.hessian (Vec.isReal_of_eq_zero hx)).bind fun w hw ↦
    (Vec.yields_add hw hc).bind fun v hv ↦
      (Projector.yields_toNullSpace hm.projector hv).bind fun residual hresidual ↦
        (Projector.yields_toNullSpace hm.projector hresidual).bind fun gradient hgradient ↦
          (Operator.yields_apply hm.hessian hgradient.neg).bind fun image himage ↦ Ensures.pure ?_
  exact ⟨{
    x := Vec.isReal_of_eq_zero hx
    inside := Vec.IsReal.zeros _
    gradient := hresidual
    direction := hgradient.neg
    image := himage
    gradientSq := hgradient.normSq }, rfl, hx, Vec.toReal_normSq_nonneg hgradient⟩

theorem yields_start (hm : model.IsReal) (hc : Vec.IsReal c) (m : ℕ) :
    Yields (fun s ↦ s.Invariant model ∧ (∀ a ∈ s.x, a = 0) ∧ 0 ≤ s.gradientSq.toReal)
      (start model c (Vec.zeros m)) := by
  refine (yields_start_isReal hm.staysReal hc m).mono fun s hs ↦ ?_
  obtain ⟨hreal, hinside, hzero, hgradient⟩ := hs
  exact ⟨⟨hreal, hinside ▸ Vec.fits_zeros hm.admitZero _⟩, hzero, hgradient⟩

/-! ## One round -/

theorem State.IsReal.counted (hs : s.IsReal) : s.counted.IsReal :=
  ⟨hs.x, hs.inside, hs.gradient, hs.direction, hs.image, hs.gradientSq⟩

theorem State.IsReal.noting (hs : s.IsReal) {x : Vec Extended} (hx : Vec.IsReal x) :
    (s.noting model x).IsReal := by
  rw [State.noting]
  split
  · exact ⟨hs.x, hx, hs.gradient, hs.direction, hs.image, hs.gradientSq⟩
  · exact ⟨hs.x, hs.inside, hs.gradient, hs.direction, hs.image, hs.gradientSq⟩

namespace State.Invariant

theorem counted (hs : s.Invariant model) : s.counted.Invariant model :=
  ⟨hs.toIsReal.counted, hs.inside_fits⟩

theorem noting (hs : s.Invariant model) {x : Vec Extended} (hx : Vec.IsReal x) :
    (s.noting model x).Invariant model := by
  refine ⟨hs.toIsReal.noting hx, ?_⟩
  rw [State.noting]
  split
  next hinside => exact Vec.inBox_iff.mp hinside
  · exact hs.inside_fits

end State.Invariant

@[simp] theorem State.gradientSq_noting (model : Model Extended) (s : State Extended)
    (x : Vec Extended) : (s.noting model x).gradientSq = s.gradientSq := by
  rw [State.noting]
  split <;> rfl

theorem yields_alongNegativeCurvature (hm : model.StaysReal) (hs : s.IsReal) :
    Yields Vec.IsReal (alongNegativeCurvature model s) := by
  refine (Segment.yields_inBoxAndBall_last hs.x hs.direction model.lower model.upper model.radius
    true).bind fun r _ ↦ ?_
  obtain _ | ⟨first, last⟩ := r
  · exact Vec.yields_clamp hs.x hm.admitReals
  · dsimp only
    split
    next hfinite =>
      have hlast := isFinite_iff.mp hfinite
      exact (Vec.yields_add hs.x (hs.direction.scale hlast)).bind fun x hx ↦
        Vec.yields_clamp hx hm.admitReals
    · exact Vec.yields_clamp hs.x hm.admitReals

theorem yields_towardsBoundary (hm : model.StaysReal) (hs : s.IsReal) {step : Vec Extended}
    (hstep : Vec.IsReal step) : Yields Vec.IsReal (towardsBoundary model s step) := by
  refine (Segment.yields_inBoxAndBall_last hs.x hstep model.lower model.upper model.radius
    false).bind fun r hr ↦ ?_
  obtain _ | ⟨first, last⟩ := r
  · exact Vec.yields_clamp hs.x hm.admitReals
  · have hlast := hr rfl first last rfl
    exact (Vec.yields_add hs.x (hstep.scale hlast)).bind fun x hx ↦
      Vec.yields_clamp hx hm.admitReals

theorem yields_advance_isReal (hm : model.StaysReal) (hs : s.IsReal) {t : Extended}
    (ht : t.IsReal) (hgradient : s.gradientSq.toReal ≠ 0) {x : Vec Extended} (hx : Vec.IsReal x) :
    Yields (fun s' ↦ s'.IsReal ∧ s'.inside = s.inside) (advance model s t x) := by
  refine (Vec.yields_add hs.gradient (hs.image.scale ht)).bind fun residual hresidual ↦
    (Projector.yields_toNullSpace hm.projector hresidual).bind fun gradient hgradient' ↦ ?_
  have hratio := hgradient'.normSq.div hs.gradientSq hgradient
  refine (Vec.yields_sub (hs.direction.scale hratio) hgradient').bind fun direction hdirection ↦
    (Operator.yields_apply hm.hessian hdirection).bind fun image himage ↦ Ensures.pure ?_
  exact ⟨{
    x := hx
    inside := hs.inside
    gradient := hgradient'
    direction := hdirection
    image := himage
    gradientSq := hgradient'.normSq }, rfl⟩

theorem yields_advance (hm : model.IsReal) (hs : s.Invariant model) {t : Extended} (ht : t.IsReal)
    (hgradient : s.gradientSq.toReal ≠ 0) {x : Vec Extended} (hx : Vec.IsReal x) :
    Yields (State.Invariant model) (advance model s t x) :=
  (yields_advance_isReal hm.staysReal hs.toIsReal ht hgradient hx).mono fun _ hs' ↦
    ⟨hs'.1, hs'.2 ▸ hs.inside_fits⟩

/-! ## All rounds -/

/-- What has to be shown of one round: how a property of states is kept until the next round, and
that every exit has a result with the other property. -/
structure RoundRule (model : Model Extended) (I Q : State Extended → Prop) : Prop where
  isReal : ∀ s, I s → s.IsReal
  done : ∀ s, I s → Q s
  alongNegativeCurvature : ∀ s, I s → Yields (fun x ↦ Q { s.counted with x })
    (alongNegativeCurvature model s.counted)
  towardsBoundary : ∀ s t, I s → Yields (fun x ↦ Q { s.counted with x })
    (towardsBoundary model s.counted (Vec.scale s.direction (real t)))
  lost : ∀ s t x, I s → Vec.add s.x (Vec.scale s.direction (real t)) = .ok x →
    ¬model.radius ≤ Vec.norm x → Q (s.counted.noting model x)
  advance : ∀ s t x, I s → s.gradientSq.toReal ≠ 0 →
    Vec.add s.x (Vec.scale s.direction (real t)) = .ok x → ¬model.radius ≤ Vec.norm x →
    Yields I (advance model (s.counted.noting model x) (real t) x)

theorem RoundRule.yields_iterate {I Q : State Extended → Prop} (rule : RoundRule model I Q) {τ : ℝ}
    (hτ : 0 < τ) (limit left : ℕ) (hs : I s) :
    Yields (fun r ↦ Q r.1) (iterate model (real τ) limit left s) := by
  induction left generalizing s with
  | zero => exact Ensures.ok (rule.done s hs)
  | succ left ih =>
    have hreal := rule.isReal s hs
    rw [iterate]
    split
    · exact Ensures.ok (rule.done s hs)
    next htol =>
      obtain ⟨g, hg⟩ := hreal.gradientSq
      -- The iteration goes on, so the squared norm is not below the positive tolerance.
      have hgpos : 0 < g := by
        rw [hg, real_lt, not_lt] at htol
        exact hτ.trans_le htol
      refine (Vec.yields_dot hreal.image hreal.direction).bind fun curvature hcurvature ↦ ?_
      obtain ⟨k, rfl⟩ := hcurvature
      split
      · exact (rule.alongNegativeCurvature s hs).bind fun x hx ↦ Ensures.pure hx
      next hk =>
        -- The curvature is positive from here on, so the step is a real multiple of the direction.
        have hkpos : 0 < k := not_le.mp fun h ↦ hk (real_le.mpr h)
        obtain ⟨t, ht⟩ := hreal.gradientSq.div (isReal_real k) hkpos.ne'
        rw [ht]
        refine (Vec.yields_add hreal.x (hreal.direction.scale (isReal_real t))).bind_eq
          fun x hadd hx ↦ ?_
        split
        · exact (rule.towardsBoundary s t hs).bind fun x hx ↦ Ensures.pure hx
        next hball =>
          split
          · exact Ensures.pure (rule.lost s t x hs hadd hball)
          · refine (rule.advance s t x hs ?_ hadd hball).bind fun s' hs' ↦ ih hs'
            rw [hg]
            exact hgpos.ne'

/-- The iteration keeps the last iterate that was inside. -/
theorem roundRule_box (hm : model.IsReal) : RoundRule model (State.Invariant model) fun s ↦
    Vec.IsReal s.x ∧ Vec.IsReal s.inside ∧ Vec.Fits s.inside model.lower model.upper where
  isReal _ hs := hs.toIsReal
  done _ hs := ⟨hs.x, hs.inside, hs.inside_fits⟩
  alongNegativeCurvature _ hs :=
    (yields_alongNegativeCurvature hm.staysReal hs.toIsReal.counted).mono fun _ hx ↦
      ⟨hx, hs.inside, hs.inside_fits⟩
  towardsBoundary _ t hs := (yields_towardsBoundary hm.staysReal hs.toIsReal.counted
    (hs.direction.scale (isReal_real t))).mono fun _ hx ↦ ⟨hx, hs.inside, hs.inside_fits⟩
  lost _ t _ hs hadd _ :=
    have hx := (Vec.yields_add hs.x (hs.direction.scale (isReal_real t))).of_eq_ok hadd
    have hnoting := hs.counted.noting hx
    ⟨hnoting.x, hnoting.inside, hnoting.inside_fits⟩
  advance s t _ hs hgradient hadd _ := by
    have hx := (Vec.yields_add hs.x (hs.direction.scale (isReal_real t))).of_eq_ok hadd
    refine yields_advance hm (hs.counted.noting hx) (isReal_real t) ?_ hx
    rwa [State.gradientSq_noting, State.counted]

theorem tolerance_pos {g : Extended} (hg : g.IsReal) (hg0 : 0 ≤ g.toReal) :
    ∃ τ : ℝ, tolerance g = real τ ∧ 0 < τ := by
  obtain ⟨g, rfl⟩ := hg
  rw [toReal_real] at hg0
  refine ⟨max (min (0.01 * √g) (0.1 * g)) 1e-25, ?_, lt_max_of_lt_right ?_⟩
  · rw [tolerance, sqrt_real hg0]
    rfl
  · norm_num

theorem exists_tolerance_le {g : ℝ} (hg : 1e-25 ≤ g) :
    ∃ τ : ℝ, tolerance (real g) = real τ ∧ τ ≤ g := by
  have hg₀ : 0 ≤ g := le_trans (by norm_num) hg
  refine ⟨max (min (0.01 * √g) (0.1 * g)) 1e-25, ?_, max_le ((min_le_right _ _).trans ?_) hg⟩
  · rw [tolerance, sqrt_real hg₀]
    rfl
  · linarith

/-- A tangential step of a feasible model consists of real numbers and is in the box. -/
theorem yields_compute (hm : model.IsReal) (hc : Vec.IsReal c) (m : ℕ) :
    Yields (fun r ↦ Vec.IsReal r.1 ∧ Vec.Fits r.1 model.lower model.upper)
      (compute model c (Vec.zeros m)) := by
  refine (yields_start hm hc m).bind fun s hs ↦ ?_
  obtain ⟨hs, hzero, hgradient⟩ := hs
  obtain ⟨τ, htol, hτ⟩ := tolerance_pos hs.gradientSq hgradient
  split
  · exact Ensures.pure ⟨hs.x, Vec.fits_of_eq_zero hm.admitZero hzero⟩
  · rw [htol]
    refine ((roundRule_box hm).yields_iterate hτ _ _ hs).bind fun r hr ↦ Ensures.pure ?_
    obtain ⟨hx, hinside, hfits⟩ := hr
    rw [conclude]
    split
    next hbox => exact ⟨hx, Vec.inBox_iff.mp hbox⟩
    · exact ⟨hinside, hfits⟩

end TangentialStep

end LogBarrier
