import LogBarrier.Proofs.Exact.ConjugateDirections
import LogBarrier.Proofs.Exact.Projections
import LogBarrier.Proofs.TrustRegion.Tangency

/-!
# Tangential steps and the quadratic model

A tangential step starts at the origin, where the quadratic model is zero, and no full step raises
the model. So a step does not raise the model, unless its last iterate was outside of the box.

## The slope

For the gradient `h x + c` of the model at an iterate and the search direction `d`, each round
preserves

  `(h x + c) · d = -‖g‖²`,

where `g` is the projected gradient. It is the new direction that makes this true: the projected
gradient at the next iterate is orthogonal to the old direction. Therefore every direction goes
down, and a full step is the one to the minimum on its line.

## Iterates outside of the box

A search over the entire line goes forwards only from an iterate inside of the box. From an iterate
outside, the part of the line in the box may be behind it, where the model is larger, and if there
is none, the iterate is clipped.
-/

namespace LogBarrier

open Extended Matrix

namespace TangentialStep

/-- The value of the quadratic model with the given gradient at the origin. -/
def Model.value {α : Type} [Scalar α] (model : Model α) (c x : Vec α) : Except Fault α := do
  let curvature ← Vec.dot (← model.hessian.apply x) x
  return 0.5 * curvature + (← Vec.dot c x)

variable {model : Model Extended} {a : DenseMatrix Extended} {ρ τ : ℝ} {s s' : State Extended}
  {c x : Vec Extended} {m : ℕ} {stop : TangentialStop}

noncomputable def Model.form (model : Model Extended) (a : DenseMatrix Extended)
    (c x : Vec Extended) : ℝ :=
  quadratic (model.hessian.asMatrix a.cols) (Vec.tuple a.cols c) (Vec.tuple a.cols x)

noncomputable def Model.slope (model : Model Extended) (a : DenseMatrix Extended)
    (c x : Vec Extended) : Fin a.cols → ℝ :=
  model.hessian.asMatrix a.cols *ᵥ Vec.tuple a.cols x + Vec.tuple a.cols c

theorem Model.PosedOver.value_eq (hm : model.PosedOver a ρ) (hc : Vec.InSpace a.cols c)
    (hx : Vec.InSpace a.cols x) : model.value c x = .ok (real (model.form a c x)) := by
  have hdefined : Ensures (fun _ ↦ False) (fun y ↦ y.length = a.cols) (model.hessian.apply x) :=
    hm.hessian.ensures_apply hx.length_eq
  obtain ⟨y, hy, -⟩ := hdefined.exists_ok
  obtain ⟨hspace, htuple⟩ := hm.hessian.tuple_apply hm.isReal_hessian hx hy
  rw [Model.value, hy, ok_bind, hspace.dot_eq hx, ok_bind, hc.dot_eq hx, ok_bind, htuple,
    dotProduct_comm, Model.form, quadratic, ofScientific_eq, real_mul, real_add]
  norm_num
  rfl

/-! ## The invariant -/

/-- What holds of every visited state besides feasibility: how its vectors belong together. The
Hessian need not be symmetric for this. -/
structure State.Tracks (model : Model Extended) (a : DenseMatrix Extended) (c : Vec Extended)
    (s : State Extended) : Prop where
  gradient : model.projector.InNullSpace s.gradient
  gradientSq : s.gradientSq = Vec.normSq s.gradient
  image : model.hessian.apply s.direction = .ok s.image
  residual : ∀ v, model.projector.InNullSpace v →
    model.slope a c s.x ⬝ᵥ Vec.tuple a.cols v = Vec.tuple a.cols s.gradient ⬝ᵥ Vec.tuple a.cols v
  slope : model.slope a c s.x ⬝ᵥ Vec.tuple a.cols s.direction = -s.gradientSq.toReal

/-- The model was not raised on the way to the state. -/
structure State.Descends (model : Model Extended) (a : DenseMatrix Extended) (c : Vec Extended)
    (s : State Extended) : Prop extends s.Tracks model a c where
  form_x : model.form a c s.x ≤ 0
  form_inside : model.form a c s.inside ≤ 0

theorem Model.PosedOver.isExact (hm : model.PosedOver a ρ) : model.projector.IsExact a :=
  hm.projector.isExact hm.isReal_matrix

theorem Model.PosedOver.inSpace (hm : model.PosedOver a ρ) (hx : model.projector.InNullSpace x) :
    Vec.InSpace a.cols x :=
  hm.variableCount ▸ hx.inSpace

theorem Model.PosedOver.dotProduct_toNullSpace (hm : model.PosedOver a ρ) {y v : Vec Extended}
    (hx : Vec.InSpace a.cols x) (hy : model.projector.toNullSpace x = .ok y)
    (hv : model.projector.InNullSpace v) :
    Vec.tuple a.cols x ⬝ᵥ Vec.tuple a.cols v = Vec.tuple a.cols y ⬝ᵥ Vec.tuple a.cols v := by
  have hcount := hm.variableCount
  rw [← hcount] at hx ⊢
  exact Projector.dotProduct_toNullSpace hm.isReal.projector.orthogonal hx hy hv

theorem Model.PosedOver.inNullSpace (hm : model.PosedOver a ρ) {y : Vec Extended}
    (hx : Vec.InSpace a.cols x) (hy : model.projector.toNullSpace x = .ok y) :
    model.projector.InNullSpace y :=
  Projector.inNullSpace_of_toNullSpace hm.isFactored hx.isReal hy

theorem toReal_normSq {n : ℕ} (hx : Vec.InSpace n x) :
    (Vec.normSq x).toReal = Vec.tuple n x ⬝ᵥ Vec.tuple n x := by
  rw [Vec.normSq, hx.dotSum_eq hx, toReal_real]

/-- The first direction is that of steepest descent. -/
theorem tracks_of_begins (hm : model.PosedOver a ρ) (hc : Vec.InSpace a.cols c)
    (h : Begins model c (Vec.zeros m) s) :
    s.Tracks model a c ∧ s.direction = Vec.neg s.gradient := by
  have hfeasible := feasible_of_begins hm hc.isReal h
  obtain ⟨w, v, gradient, hw, hv, hresidual, hgradient, hgradientSq, hdirection, himage, -⟩ :=
    start_eq_ok h.start
  obtain ⟨hwspace, hwtuple⟩ := hm.hessian.tuple_apply hm.isReal_hessian
    (hm.inSpace hfeasible.confined.x) hw
  obtain ⟨hvspace, hvtuple⟩ := hwspace.add hc hv
  rw [hwtuple] at hvtuple
  have hnull := hm.inNullSpace hvspace hresidual
  -- The second projection leaves the residual as it is.
  obtain rfl : s.gradient = gradient := Except.ok.inj
    ((Projector.toNullSpace_of_inNullSpace hm.isReal.projector.orthogonal hnull).symm.trans
      hgradient)
  have hdot : ∀ v, model.projector.InNullSpace v → model.slope a c s.x ⬝ᵥ
      Vec.tuple a.cols v = Vec.tuple a.cols s.gradient ⬝ᵥ Vec.tuple a.cols v := fun v hv ↦ by
    rw [Model.slope, ← hvtuple]
    exact hm.dotProduct_toNullSpace hvspace hresidual hv
  refine ⟨⟨hnull, hgradientSq, himage, hdot, ?_⟩, hdirection⟩
  rw [hdirection, hdot _ hnull.neg, ((hm.inSpace hnull).neg).2, dotProduct_neg, hgradientSq,
    toReal_normSq (hm.inSpace hnull)]

theorem descends_of_begins (hm : model.PosedOver a ρ) (hc : Vec.InSpace a.cols c)
    (h : Begins model c (Vec.zeros m) s) : s.Descends model a c := by
  obtain ⟨hinv, hzero, -⟩ := (yields_start hm.isReal hc.isReal m).of_eq_ok h.start
  obtain ⟨hx, hinside, -⟩ := confined_of_start hm.isReal hm.isFactored h.start hinv hzero
  rw [hm.variableCount] at hx hinside
  have hform : model.form a c (Vec.zeros a.cols) = 0 := by
    rw [Model.form, Vec.tuple_zeros, quadratic_zero]
  exact ⟨(tracks_of_begins hm hc h).1, (hx ▸ hform).le, (hinside ▸ hform).le⟩

theorem State.Tracks.curvature (hm : model.PosedOver a ρ) (hs : s.Tracks model a c)
    (hfeasible : s.Feasible model ρ) {κ : ℝ} (h : Vec.dot s.image s.direction = .ok (real κ)) :
    Vec.InSpace a.cols s.image
      ∧ Vec.tuple a.cols s.image = model.hessian.asMatrix a.cols *ᵥ Vec.tuple a.cols s.direction
      ∧ model.hessian.asMatrix a.cols *ᵥ Vec.tuple a.cols s.direction
        ⬝ᵥ Vec.tuple a.cols s.direction = κ := by
  have hdirection := hm.inSpace hfeasible.confined.direction
  obtain ⟨hspace, htuple⟩ := hm.hessian.tuple_apply hm.isReal_hessian hdirection hs.image
  rw [hspace.dot_eq hdirection, htuple] at h
  exact ⟨hspace, htuple, real_inj.mp (Except.ok.inj h)⟩

theorem Model.slope_add_smul {x d y : Vec Extended} {t : ℝ}
    (h : Vec.tuple a.cols y = Vec.tuple a.cols x + t • Vec.tuple a.cols d) :
    model.slope a c y =
      model.slope a c x + t • (model.hessian.asMatrix a.cols *ᵥ Vec.tuple a.cols d) := by
  rw [Model.slope, Model.slope, h, mulVec_add, mulVec_smul]
  abel

theorem FullStep.tuple_eq {k : Extended} (hm : model.PosedOver a ρ) (hτ : 0 < τ)
    (hfeasible : s.Feasible model ρ) (h : FullStep (real τ) s k x) :
    ∃ g κ : ℝ, s.gradientSq = real g ∧ k = real κ ∧ 0 < g ∧ 0 < κ
      ∧ s.gradientSq / k = real (g / κ) ∧ Vec.InSpace a.cols x
      ∧ Vec.tuple a.cols x = Vec.tuple a.cols s.x + (g / κ) • Vec.tuple a.cols s.direction := by
  obtain ⟨g, κ, hg, hk, hgpos, hκ, ht⟩ := h.exists_real hτ hfeasible.invariant.toIsReal
  have hreaches := h.reaches
  rw [ht] at hreaches
  obtain ⟨hscale, hscaleTuple⟩ := (hm.inSpace hfeasible.confined.direction).scale (g / κ)
  obtain ⟨hx, hxtuple⟩ := (hm.inSpace hfeasible.confined.x).add hscale hreaches
  exact ⟨g, κ, hg, hk, hgpos, hκ, ht, hx, hscaleTuple ▸ hxtuple⟩

theorem State.Descends.form_le (hm : model.PosedOver a ρ) (hsymm : model.hessian.IsSymmetric)
    (hτ : 0 < τ) (hfeasible : s.Feasible model ρ) (hs : s.Descends model a c) {k : Extended}
    (h : FullStep (real τ) s k x) : model.form a c x ≤ 0 := by
  obtain ⟨g, κ, hg, rfl, -, hκ, -, -, hx⟩ := h.tuple_eq hm hτ hfeasible
  obtain ⟨-, -, hcurvature⟩ := hs.curvature hm hfeasible h.curvature
  have hslope := hs.slope
  rw [hg, toReal_real] at hslope
  rw [Model.form, hx, ← mul_one (g / κ)]
  exact (quadratic_le_of_part (hsymm.isSymm hm.hessian) hslope hcurvature hκ zero_le_one
    le_rfl).trans hs.form_x

/-- A full round is a round of conjugate gradients in the null space. -/
theorem conjugateRound_of_fullRound (hm : model.PosedOver a ρ) (hτ : 0 < τ)
    (hfeasible : s.Feasible model ρ) (hs : s.Tracks model a c)
    (h : FullRound model (real τ) s s') :
    model.projector.InNullSpace s'.gradient ∧ ∃ γ κ, s.gradientSq = real γ
      ∧ Vec.tuple a.cols s'.x = Vec.tuple a.cols s.x + (γ / κ) • Vec.tuple a.cols s.direction
      ∧ ConjugateRound (model.hessian.asMatrix a.cols) a.nullSpace γ κ
        (Vec.tuple a.cols s.gradient) (Vec.tuple a.cols s.direction)
        (Vec.tuple a.cols s'.gradient) (Vec.tuple a.cols s'.direction) := by
  obtain ⟨k, x, hstep, hball, hadvance⟩ := h
  obtain ⟨γ, κ, hγ, rfl, hγpos, hκ, ht, hx, hxtuple⟩ := hstep.tuple_eq hm hτ hfeasible
  obtain ⟨hispace, hituple, hcurvature⟩ := hs.curvature hm hfeasible hstep.curvature
  obtain ⟨inside, outside, hnoting, -⟩ := State.noting_eq model s.counted x
  rw [hnoting, ht] at hadvance
  obtain ⟨residual, hresidual, hgradient, hgradientSq, hdirection, -, rfl, -, -⟩ :=
    advance_eq_ok hadvance
  dsimp only [State.counted] at hresidual hdirection
  obtain ⟨hscale, hscaleTuple⟩ := hispace.scale (γ / κ)
  obtain ⟨hrspace, hrtuple⟩ := (hm.inSpace hs.gradient).add hscale hresidual
  have hnull := hm.inNullSpace hrspace hgradient
  have hgspace := hm.inSpace hnull
  have hexact := hm.isExact
  refine ⟨hnull, γ, κ, hγ, hxtuple, hγpos.ne', hκ.ne',
    (hexact.inNullSpace_iff_mem.mp hfeasible.confined.direction).2,
    (hexact.inNullSpace_iff_mem.mp hnull).2, ?_, hcurvature, fun u hu ↦ ?_, ?_⟩
  · rw [← hs.residual _ hfeasible.confined.direction, hs.slope, hγ, toReal_real]
  · have hprojected := hm.dotProduct_toNullSpace hrspace hgradient
      (hexact.inNullSpace_iff_mem.mpr ⟨Vec.inSpace_ofTuple u, by rwa [Vec.tuple_ofTuple]⟩)
    rw [Vec.tuple_ofTuple] at hprojected
    rw [← hprojected, hrtuple, hscaleTuple, hituple, add_dotProduct, smul_dotProduct, smul_eq_mul]
  · have hsquare := hgspace.dotSum_eq hgspace
    rw [← Vec.normSq, ← hgradientSq] at hsquare
    rw [hsquare, hγ, real_div hγpos.ne'] at hdirection
    obtain ⟨hβspace, hβtuple⟩ := (hm.inSpace hfeasible.confined.direction).scale
      (Vec.tuple a.cols s'.gradient ⬝ᵥ Vec.tuple a.cols s'.gradient / γ)
    rw [(hβspace.sub hgspace hdirection).2, hβtuple]

/-- The projected gradient after a full round is orthogonal to the direction, and so the next
direction goes down. -/
theorem tracks_of_fullRound (hm : model.PosedOver a ρ) (hτ : 0 < τ)
    (hfeasible : s.Feasible model ρ) (hs : s.Tracks model a c)
    (h : FullRound model (real τ) s s') : s'.Tracks model a c := by
  have hnext := feasible_of_fullRound hm hτ hfeasible h
  obtain ⟨hnull, γ, κ, -, hx, hround⟩ := conjugateRound_of_fullRound hm hτ hfeasible hs h
  obtain ⟨k, x, -, -, hadvance⟩ := h
  obtain ⟨_, -, hgradient, hgradientSq, -, himage, -, -, -⟩ := advance_eq_ok hadvance
  -- The projected gradient is the gradient of the model, as far as the null space sees it.
  have hdot : ∀ v, model.projector.InNullSpace v → model.slope a c s'.x ⬝ᵥ Vec.tuple a.cols v =
      Vec.tuple a.cols s'.gradient ⬝ᵥ Vec.tuple a.cols v := fun v hv ↦ by
    rw [hround.gradient _ (hm.isExact.inNullSpace_iff_mem.mp hv).2, ← hs.residual v hv,
      Model.slope_add_smul hx, add_dotProduct, smul_dotProduct, smul_eq_mul]
  refine ⟨hnull, hgradientSq, himage, hdot, ?_⟩
  rw [hdot _ hnext.confined.direction, hround.direction, dotProduct_sub, dotProduct_smul,
    hround.orthogonal_last, smul_zero, zero_sub, hgradientSq, toReal_normSq (hm.inSpace hnull)]

theorem descends_of_fullRound (hm : model.PosedOver a ρ) (hsymm : model.hessian.IsSymmetric)
    (hτ : 0 < τ) (hfeasible : s.Feasible model ρ) (hs : s.Descends model a c)
    (h : FullRound model (real τ) s s') : s'.Descends model a c := by
  have htracks := tracks_of_fullRound hm hτ hfeasible hs.toTracks h
  obtain ⟨k, x, hstep, -, hadvance⟩ := h
  have hform := hs.form_le hm hsymm hτ hfeasible hstep
  obtain ⟨inside, outside, hnoting, hinside⟩ := State.noting_eq model s.counted x
  rw [hnoting] at hadvance
  obtain ⟨_, -, -, -, -, -, rfl, hinside', -⟩ := advance_eq_ok hadvance
  refine ⟨htracks, hform, ?_⟩
  rw [hinside']
  dsimp only [State.counted] at hinside ⊢
  rcases hinside with rfl | rfl
  · exact hform
  · exact hs.form_inside

theorem Visits.descends (hm : model.PosedOver a ρ) (hsymm : model.hessian.IsSymmetric)
    (hc : Vec.InSpace a.cols c) (h : Visits model c (Vec.zeros m) s) : s.Descends model a c :=
  h.induction_feasible hm hc.isReal (fun _ ↦ descends_of_begins hm hc)
    fun _ _ _ ↦ descends_of_fullRound hm hsymm

/-! ## The last movement -/

/-- The last movement went back along the line, or off it. -/
inductive GoesAstray (model : Model Extended) (s : State Extended) (x : Vec Extended) :
    TangentialStop → Prop where
  | clips {stop : TangentialStop} (h : model.Clips s x) : GoesAstray model s x stop
  | back {t : ℝ} (outside : ¬Vec.Fits s.x model.lower model.upper) (negative : t < 0)
    (h : x = Vec.onLine s.x s.direction (real t)) : GoesAstray model s x .negativeCurvature

theorem Moves.form_le_or_goesAstray (hm : model.PosedOver a ρ) (hsymm : model.hessian.IsSymmetric)
    (hτ : 0 < τ) (hfeasible : s.Feasible model ρ) (hs : s.Descends model a c)
    (h : Moves model (real τ) s x stop) : model.form a c x ≤ 0 ∨ GoesAstray model s x stop := by
  have hH := hsymm.isSymm hm.hessian
  have hline := (hm.inSpace hfeasible.confined.x).onLine
    (hm.inSpace hfeasible.confined.direction)
  cases h with
  | negativeCurvature hlarge hcurvature hnegative hmoved =>
    obtain ⟨t, rfl, hforwards⟩ | hclips :=
      onLine_or_clips_of_negativeCurvature hm hfeasible.confined hmoved
    · obtain ⟨g, hg⟩ := hfeasible.invariant.gradientSq
      obtain ⟨κ, rfl⟩ := (Vec.yields_dot hfeasible.invariant.image
        hfeasible.invariant.direction).of_eq_ok hcurvature
      have hslope := hs.slope
      rw [hg, toReal_real] at hslope
      rw [hg, real_lt, not_lt] at hlarge
      by_cases ht : 0 ≤ t
      · refine .inl (le_trans ?_ hs.form_x)
        rw [Model.form, (hline t).2]
        exact quadratic_le_of_negative hH hslope (hs.curvature hm hfeasible hcurvature).2.2
          (hτ.le.trans hlarge) (real_le.mp hnegative) ht
      · exact .inr (.back (fun hfits ↦ ht (hforwards hfits)) (not_le.mp ht) rfl)
    · exact .inr (.clips hclips)
  | ballBoundary hstep _ hmoved =>
    obtain ⟨g, κ, hg, rfl, -, hκ, ht⟩ := hstep.exists_real hτ hfeasible.invariant.toIsReal
    rw [ht] at hmoved
    obtain ⟨θ, rfl, h₀, h₁⟩ | hclips :=
      onLine_or_clips_of_towardsBoundary hm hfeasible.confined hmoved
    · have hslope := hs.slope
      rw [hg, toReal_real] at hslope
      refine .inl (le_trans ?_ hs.form_x)
      rw [Model.form, (hline (g / κ * θ)).2]
      exact quadratic_le_of_part hH hslope (hs.curvature hm hfeasible hstep.curvature).2.2 hκ h₀ h₁
    · exact .inr (.clips hclips)

theorem GoesAstray.outside (h : GoesAstray model s x stop) :
    ¬Vec.Fits s.x model.lower model.upper := by
  cases h with
  | clips h => exact h.1
  | back houtside => exact houtside

theorem Model.PosedOver.inSpace_compute (hm : model.PosedOver a ρ) (hc : Vec.InSpace a.cols c)
    {report : TangentialReport} (h : compute model c (Vec.zeros a.rows) = .ok (x, report)) :
    Vec.InSpace a.cols x where
  isReal := ((yields_compute hm.isReal hc.isReal a.rows).of_eq_ok h).1
  length_eq := (ensures_compute (hm.toOver.shaped fun _ ↦ False) hc.length_eq
    (Vec.length_zeros a.rows)).of_eq_ok h

/-- **Descent.** A tangential step for a symmetric Hessian is always found, and the quadratic model
is not positive there, unless the step ended at the boundary of the ball or along a direction
without positive curvature, and it went back or off its line from an iterate outside of the box. -/
theorem compute_reduces_model (hm : model.PosedOver a ρ) (hsymm : model.hessian.IsSymmetric)
    (hc : Vec.IsReal c) (hlength : c.length = a.cols) :
    ∃ x report, compute model c (Vec.zeros a.rows) = .ok (x, report)
      ∧ ∃ q : ℝ, model.value c x = .ok (real q)
        ∧ (q ≤ 0 ∨ (report.stop = .ballBoundary ∨ report.stop = .negativeCurvature)
          ∧ ∃ s, Visits model c (Vec.zeros a.rows) s ∧ ¬Vec.Fits s.x model.lower model.upper
            ∧ GoesAstray model s x report.stop) := by
  have hspace : Vec.InSpace a.cols c := ⟨hc, hlength⟩
  obtain ⟨x, report, h⟩ := hm.toOver.exists_compute hlength
  refine ⟨x, report, h, _, hm.value_eq hspace (hm.inSpace_compute hspace h), ?_⟩
  have hfeasible : ∀ s, Visits model c (Vec.zeros a.rows) s → s.Feasible model ρ :=
    fun s hs ↦ hs.feasible hm hc
  have hdescends : ∀ s, Visits model c (Vec.zeros a.rows) s → s.Descends model a c :=
    fun s hs ↦ hs.descends hm hsymm hspace
  have hform : model.form a c x ≤ 0 ∨ ∃ s τ, Visits model c (Vec.zeros a.rows) s ∧ 0 < τ
      ∧ Moves model (real τ) s x report.stop := by
    refine holds_or_moves hm hc h ?_
      (fun s hs ↦ ⟨(hdescends s hs).form_x, (hdescends s hs).form_inside⟩)
      fun s τ k y hs hτ hstep _ ↦
        (hdescends s hs).form_le hm hsymm hτ (hfeasible s hs) hstep
    rw [hm.variableCount, Model.form, Vec.tuple_zeros, quadratic_zero]
  obtain hform | ⟨s, τ, hs, hτ, hmoves⟩ := hform
  · exact .inl hform
  · exact (hmoves.form_le_or_goesAstray hm hsymm hτ (hfeasible s hs) (hdescends s hs)).imp_right
      fun hastray ↦ ⟨hmoves.stop_eq, s, hs, hastray.outside, hastray⟩

/-! ## A clipped iterate where the model is larger -/

section Escape

theorem isSymmetric_escape (p : Projector Extended) : (escapeModel p).hessian.IsSymmetric :=
  Operator.isSymmetric_diagonal _

theorem value_escape (p : Projector Extended) :
    (escapeModel p).value escapeGradient escapeStep = .ok (real (19 / 16)) := by
  rw [Model.value, escapeStep, apply_escape, ok_bind, escapeGradient, Vec.dot_triple, ok_bind,
    Vec.dot_triple, ok_bind, ofScientific_eq]
  norm_num
  rfl

/-- A tangential step may raise the quadratic model. -/
theorem clipped_step_raises_model :
    ∃ p, (escapeModel p).PosedOver escapeMatrix 4 ∧ (escapeModel p).hessian.IsSymmetric
      ∧ Vec.IsReal escapeGradient
      ∧ compute (escapeModel p) escapeGradient (Vec.zeros escapeMatrix.rows) =
        .ok (escapeStep, ⟨2, .ballBoundary, true⟩)
      ∧ ∃ q : ℝ, (escapeModel p).value escapeGradient escapeStep = .ok (real q) ∧ 0 < q := by
  obtain ⟨p, hp⟩ := exists_projector_escape
  exact ⟨p, posedOver_escapeModel hp, isSymmetric_escape p, isReal_escapeGradient,
    compute_escape hp, _, value_escape p, by norm_num⟩

/-- The step that raises the model is a clipped iterate. -/
theorem raising_step_is_clipped :
    ∃ p, (escapeModel p).PosedOver escapeMatrix 4
      ∧ ∃ s, Visits (escapeModel p) escapeGradient (Vec.zeros escapeMatrix.rows) s
        ∧ (escapeModel p).Clips s escapeStep := by
  obtain ⟨p, hp⟩ := exists_projector_escape
  obtain ⟨x, report, h, q, hq, hx⟩ := compute_reduces_model (posedOver_escapeModel hp)
    (isSymmetric_escape p) isReal_escapeGradient rfl
  obtain ⟨rfl, rfl⟩ := Prod.mk.inj (Except.ok.inj ((compute_escape hp).symm.trans h))
  obtain rfl : 19 / 16 = q := real_inj.mp (Except.ok.inj ((value_escape p).symm.trans hq))
  obtain hlow | ⟨-, s, hs, -, hastray⟩ := hx
  · norm_num at hlow
  · cases hastray with
    | clips hclips => exact ⟨p, posedOver_escapeModel hp, s, hs, hclips⟩

end Escape

end TangentialStep

end LogBarrier
