import LogBarrier.Proofs.Exact.Projections
import LogBarrier.Proofs.TrustRegion.Descent

/-!
# Undisturbed tangential steps

A tangential step whose report says that neither the ball nor the box restricted it is the last
iterate. It is in the null space and properly inside of the ball, and what the iteration keeps as
its projected gradient is the gradient of the model there, projected to the null space. So the test
that ends the iteration is a test of the model, although the gradient is only updated from round to
round.

## Infinite balls

The invariants of the iteration belong to a ball of finite radius. Finitely many iterates are in
some finite ball, and the rounds that lead to them do not depend on the radius as long as they stay
in the ball. So whatever is visited in an infinite ball is visited in a finite one.
-/

namespace LogBarrier

open Extended Matrix Relation

namespace TangentialStep

section Rounds

variable {α : Type} [Scalar α] {model : Model α} {tol : α} {s s' : State α} {b c x : Vec α}
  {report : TangentialReport}

def Model.withRadius (model : Model α) (radius : α) : Model α := { model with radius }

def Model.reducedGradient (model : Model α) (c x : Vec α) : Except Fault (Vec α) := do
  model.projector.toNullSpace (← Vec.add (← model.hessian.apply x) c)

theorem FullRound.x_eq (h : FullRound model tol s s') :
    ∃ k, FullStep tol s k s'.x ∧ ¬model.radius ≤ Vec.norm s'.x := by
  obtain ⟨k, x, hstep, hball, hadvance⟩ := h
  obtain ⟨_, -, -, -, -, -, rfl, -, -⟩ := advance_eq_ok hadvance
  exact ⟨k, hstep, hball⟩

/-- A full round is one in any ball in which it ends. -/
theorem FullRound.withRadius {radius : α} (h : FullRound model tol s s')
    (hball : ¬radius ≤ Vec.norm s'.x) : FullRound (model.withRadius radius) tol s s' := by
  obtain ⟨k, x, hstep, -, hadvance⟩ := h
  obtain ⟨_, -, -, -, -, -, hx, -, -⟩ := advance_eq_ok hadvance
  exact ⟨k, x, hstep, hx ▸ hball, hadvance⟩

/-- A step that was not restricted is the last iterate, which is in the box. -/
theorem undisturbed_ends (h : compute model c b = .ok (x, report))
    (hits : report.hitsBoundary = false) :
    ∃ s₀ s, Begins model c b s₀ ∧ ReflTransGen (FullRound model (tolerance s₀.gradientSq)) s₀ s
      ∧ x = s.x ∧ Vec.inBox x model.lower model.upper = true
      ∧ (report.stop = .converged ∧ s.gradientSq < tolerance s₀.gradientSq
        ∨ report.stop = .exhausted) := by
  obtain ⟨-, -, -, -, rfl⟩ | ⟨s₀, s, r, hs₀, hpath, hending, hconclude⟩ := compute_ends h
  · cases hits
  rw [conclude] at hconclude
  split at hconclude
  next hbox =>
    cases hconclude
    refine ⟨s₀, s, hs₀, hpath, ?_⟩
    cases hending with
    | exhausted => exact ⟨rfl, hbox, .inr rfl⟩
    | converged hsmall => exact ⟨rfl, hbox, .inl ⟨rfl, hsmall⟩⟩
    | @lost k y =>
      obtain ⟨inside, outside, hnoting, -⟩ := State.noting_eq model s.counted y
      have hx : (s.counted.noting model y).x = s.x := by rw [hnoting]; rfl
      exact ⟨hx, hbox, .inr rfl⟩
    | boundary => cases hits
  next =>
    cases hconclude
    cases hits

end Rounds

variable {model : Model Extended} {a : DenseMatrix Extended} {ρ τ : ℝ} {s s₀ : State Extended}
  {c x y : Vec Extended} {m : ℕ} {report : TangentialReport}

/-! ## Infinite balls -/

theorem Model.Over.posed (hm : model.Over a) (hρ : 0 < ρ) :
    (model.withRadius (real ρ)).PosedOver a ρ :=
  ⟨⟨hm.hessian, hm.isReal_hessian, hm.isReal_matrix, hm.projector, hm.length_lower,
    hm.length_upper, hm.admitZero⟩, rfl, hρ⟩

/-- Finitely many rounds are rounds in every ball that is large enough. -/
theorem exists_radius (hm : model.Over a) (hτ : 0 < τ) (hs₀ : s₀.Invariant model)
    (h : ReflTransGen (FullRound model (real τ)) s₀ s) :
    s.Invariant model
      ∧ ∃ R, ∀ ρ, R ≤ ρ → ReflTransGen (FullRound (model.withRadius (real ρ)) (real τ)) s₀ s := by
  induction h with
  | refl => exact ⟨hs₀, 0, fun _ _ ↦ .refl⟩
  | tail _ hround ih =>
    obtain ⟨hs, R, hR⟩ := ih
    have hs' := (roundRule_box hm.isReal).of_fullRound hτ hs hround
    obtain ⟨r, hr⟩ := hs'.x.norm
    refine ⟨hs', max R (r + 1), fun ρ hρ ↦ ?_⟩
    have hball : ¬real ρ ≤ real r := fun hle ↦ by
      have hlt := (le_max_right R (r + 1)).trans hρ
      exact absurd (real_le.mp hle) (by linarith)
    exact (hR ρ ((le_max_left R (r + 1)).trans hρ)).tail (hround.withRadius (hr ▸ hball))

/-- What is visited in any ball is visited in a finite one. -/
theorem Begins.bounded (hm : model.Over a) (hc : Vec.IsReal c)
    (hs₀ : Begins model c (Vec.zeros m) s₀)
    (hpath : ReflTransGen (FullRound model (tolerance s₀.gradientSq)) s₀ s) :
    ∃ ρ, (model.withRadius (real ρ)).PosedOver a ρ
      ∧ Begins (model.withRadius (real ρ)) c (Vec.zeros m) s₀
      ∧ Visits (model.withRadius (real ρ)) c (Vec.zeros m) s := by
  obtain ⟨hinv, -, hgradient⟩ := (yields_start hm.isReal hc m).of_eq_ok hs₀.start
  obtain ⟨τ, hτ, hpos⟩ := tolerance_pos hinv.gradientSq hgradient
  rw [hτ] at hpath
  obtain ⟨-, R, hR⟩ := exists_radius hm hpos hinv hpath
  obtain ⟨r, hr⟩ := hinv.x.norm
  have hbegins : Begins (model.withRadius (real (max R (|r| + 1)))) c (Vec.zeros m) s₀ := by
    refine ⟨hs₀.start, ?_⟩
    have hroom : |r| + 1 ≤ max R (|r| + 1) := le_max_right _ _
    have hone : (1e-25 : ℝ) ≤ 1 := by norm_num
    rw [Model.withRadius, hr, real_sub, negligible, ofScientific_eq, real_lt, not_lt]
    linarith [le_abs_self r]
  have hpositive : 0 < max R (|r| + 1) := lt_max_of_lt_right (by positivity)
  refine ⟨max R (|r| + 1), hm.posed hpositive, hbegins, s₀, hbegins, ?_⟩
  rw [hτ]
  exact hR _ (le_max_left _ _)

theorem Visits.norm_lt (hm : model.Over a) (hc : Vec.IsReal c) (hradius : model.radius ≠ nan)
    (h : Visits model c (Vec.zeros m) s) : Vec.norm s.x < model.radius := by
  obtain ⟨s₀, hs₀, hpath⟩ := h
  obtain ⟨hinv, -, hgradient⟩ := (yields_start hm.isReal hc m).of_eq_ok hs₀.start
  obtain ⟨τ, hτ, hpos⟩ := tolerance_pos hinv.gradientSq hgradient
  rw [hτ] at hpath
  obtain ⟨r, hr⟩ := (exists_radius hm hpos hinv hpath).1.x.norm
  refine lt_of_not_le hradius (hr ▸ real_ne_nan r) ?_
  obtain rfl | ⟨s', -, hround⟩ := hpath.cases_tail
  · -- There is room between the starting point and the boundary.
    intro hle
    refine hs₀.room ?_
    rw [hr] at hle ⊢
    rcases le_real_iff.mp hle with hinf | ⟨ρ, hρ, hreal⟩
    · rw [hinf, negligible, ofScientific_eq]
      exact negInf_lt_real _
    · rw [hreal, real_sub, negligible, ofScientific_eq, real_lt]
      exact (sub_nonpos.mpr hρ).trans_lt (by norm_num)
  · obtain ⟨k, -, hball⟩ := hround.x_eq
    exact hball

/-! ## The projected gradient -/

theorem Model.PosedOver.exists_sub (hm : model.PosedOver a ρ) (hx : model.projector.InNullSpace x)
    (hy : model.projector.InNullSpace y) : ∃ d, model.projector.InNullSpace d
      ∧ Vec.tuple a.cols d = Vec.tuple a.cols x - Vec.tuple a.cols y := by
  have hsub : Vec.sub x y = .ok (List.zipWith (· - ·) x y) :=
    Vec.combine_eq_ok_iff.mpr ⟨hx.length_eq.trans hy.length_eq.symm, rfl⟩
  exact ⟨_, hx.sub hy hsub, ((hm.inSpace hx).sub (hm.inSpace hy) hsub).2⟩

theorem Model.PosedOver.eq_of_dotProduct_eq (hm : model.PosedOver a ρ)
    (hx : model.projector.InNullSpace x) (hy : model.projector.InNullSpace y)
    (h : ∀ v, model.projector.InNullSpace v →
      Vec.tuple a.cols x ⬝ᵥ Vec.tuple a.cols v = Vec.tuple a.cols y ⬝ᵥ Vec.tuple a.cols v) :
    x = y := by
  obtain ⟨d, hd, htuple⟩ := hm.exists_sub hx hy
  have horthogonal := h d hd
  rw [htuple, ← sub_eq_zero, ← sub_dotProduct] at horthogonal
  exact (hm.inSpace hx).ext (hm.inSpace hy)
    (sub_eq_zero.mp (dotProduct_self_eq_zero.mp horthogonal))

theorem Model.PosedOver.exists_reducedGradient (hm : model.PosedOver a ρ)
    (hc : Vec.InSpace a.cols c) (hx : Vec.InSpace a.cols x) :
    ∃ g, model.reducedGradient c x = .ok g ∧ model.projector.InNullSpace g
      ∧ ∀ v, model.projector.InNullSpace v →
        model.slope a c x ⬝ᵥ Vec.tuple a.cols v = Vec.tuple a.cols g ⬝ᵥ Vec.tuple a.cols v := by
  have happly : Ensures (fun _ ↦ False) (fun y ↦ y.length = a.cols) (model.hessian.apply x) :=
    hm.hessian.ensures_apply hx.length_eq
  obtain ⟨w, hw, -⟩ := happly.exists_ok
  obtain ⟨hwspace, hwtuple⟩ := hm.hessian.tuple_apply hm.isReal_hessian hx hw
  obtain ⟨v, hv, hvspace, hvtuple⟩ := hwspace.add_eq_ok hc
  obtain ⟨g, hg, -⟩ := (Projector.ensures_toNullSpace
    (hm.toOver.shaped fun _ ↦ False).projector hvspace.length_eq).exists_ok
  refine ⟨g, ?_, hm.inNullSpace hvspace hg, fun z hz ↦ ?_⟩
  · rw [Model.reducedGradient, hw, ok_bind, hv, ok_bind, hg]
  · rw [← hm.dotProduct_toNullSpace hvspace hg hz, hvtuple, hwtuple, Model.slope]

/-- The iteration keeps the projected gradient of the model. -/
theorem State.Tracks.reducedGradient_eq (hm : model.PosedOver a ρ) (hc : Vec.InSpace a.cols c)
    (hfeasible : s.Feasible model ρ) (hs : s.Tracks model a c) :
    model.reducedGradient c s.x = .ok s.gradient := by
  obtain ⟨g, hg, hnull, hdot⟩ := hm.exists_reducedGradient hc (hm.inSpace hfeasible.confined.x)
  rw [hg, hm.eq_of_dotProduct_eq hnull hs.gradient fun v hv ↦ ?_]
  rw [← hdot v hv, hs.residual v hv]

theorem Model.PosedOver.reducedGradient_zeros (hm : model.PosedOver a ρ)
    (hc : Vec.InSpace a.cols c) :
    model.reducedGradient c (Vec.zeros a.cols) = model.projector.toNullSpace c := by
  have hzeros := Vec.inSpace_zeros a.cols
  have happly : Ensures (fun _ ↦ False) (fun y ↦ y.length = a.cols)
      (model.hessian.apply (Vec.zeros a.cols)) := hm.hessian.ensures_apply hzeros.length_eq
  obtain ⟨w, hw, -⟩ := happly.exists_ok
  obtain ⟨hwspace, hwtuple⟩ := hm.hessian.tuple_apply hm.isReal_hessian hzeros hw
  obtain ⟨v, hv, hvspace, hvtuple⟩ := hwspace.add_eq_ok hc
  rw [hwtuple, Vec.tuple_zeros, mulVec_zero, zero_add] at hvtuple
  rw [Model.reducedGradient, hw, ok_bind, hv, ok_bind, hvspace.ext hc hvtuple]

theorem Begins.toNullSpace_eq (hm : model.PosedOver a ρ) (hc : Vec.InSpace a.cols c)
    (h : Begins model c (Vec.zeros m) s) : model.projector.toNullSpace c = .ok s.gradient := by
  obtain ⟨hinv, hzero, -⟩ := (yields_start hm.isReal hc.isReal m).of_eq_ok h.start
  obtain ⟨hx, -, -⟩ := confined_of_start hm.isReal hm.isFactored h.start hinv hzero
  have hgradient := (tracks_of_begins hm hc h).1.reducedGradient_eq hm hc
    (feasible_of_begins hm hc.isReal h)
  rwa [hx, hm.variableCount, hm.reducedGradient_zeros hc] at hgradient

theorem Visits.tracks (hm : model.PosedOver a ρ) (hc : Vec.InSpace a.cols c)
    (h : Visits model c (Vec.zeros m) s) : s.Tracks model a c :=
  h.induction_feasible hm hc.isReal (fun _ hs ↦ (tracks_of_begins hm hc hs).1)
    fun _ _ _ ↦ tracks_of_fullRound hm

/-! ## What the report means -/

/-- What is true of a step that neither the ball nor the box restricted. -/
structure Model.Undisturbed (model : Model Extended) (a : DenseMatrix Extended)
    (c x : Vec Extended) (stop : TangentialStop) : Prop where
  stop_eq : stop = .converged ∨ stop = .exhausted
  fits : Vec.Fits x model.lower model.upper
  norm_lt : Vec.norm x < model.radius
  tangent : a.mulVec x = .ok (Vec.zeros a.rows)
  small : stop = .converged → ∃ g g₀, model.reducedGradient c x = .ok g
    ∧ model.projector.toNullSpace c = .ok g₀
    ∧ Vec.normSq g <
      Scalar.maxNum (Scalar.minNum (0.01 * Vec.norm g₀) (0.1 * Vec.normSq g₀)) 1e-25

/-- A step that was not restricted passed the test of the model with which it ended. -/
theorem undisturbed_of_hits_eq_false (hm : model.Over a) (hradius : model.radius ≠ nan)
    (hc : Vec.InSpace a.cols c) (h : compute model c (Vec.zeros a.rows) = .ok (x, report))
    (hits : report.hitsBoundary = false) : model.Undisturbed a c x report.stop := by
  obtain ⟨s₀, s, hs₀, hpath, rfl, hbox, hstop⟩ := undisturbed_ends h hits
  have hs : Visits model c (Vec.zeros a.rows) s := ⟨s₀, hs₀, hpath⟩
  obtain ⟨ρ, hposed, hbegins, hvisits⟩ := hs₀.bounded hm hc.isReal hpath
  have hfeasible := hvisits.feasible hposed hc.isReal
  have htracks := hvisits.tracks hposed hc
  -- Neither the model's gradient nor its projection depends on the radius.
  have hg := htracks.reducedGradient_eq hposed hc hfeasible
  have hg₀ := hbegins.toNullSpace_eq hposed hc
  refine ⟨hstop.imp And.left id, Vec.inBox_iff.mp hbox, hs.norm_lt hm hc.isReal hradius,
    Projector.mulVec_of_inNullSpace hm.isReal_matrix hm.isFactored hfeasible.confined.x,
    fun hconverged ↦ ?_⟩
  obtain ⟨-, hsmall⟩ | hexhausted := hstop
  · refine ⟨s.gradient, s₀.gradient, hg, hg₀, ?_⟩
    rw [htracks.gradientSq, (tracks_of_begins hposed hc hbegins).1.gradientSq] at hsmall
    exact hsmall
  · rw [hexhausted] at hconverged
    cases hconverged

end TangentialStep

end LogBarrier
