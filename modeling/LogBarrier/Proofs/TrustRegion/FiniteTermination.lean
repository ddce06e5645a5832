import LogBarrier.Proofs.TrustRegion.Undisturbed

/-!
# Tangential steps that nothing restricts

Let the Hessian be symmetric and positive definite on the null space, and let the ball and the box
be infinite. A tangential step cannot reach the boundary then, and its iteration ends when the
projected gradient is small, or after as many rounds as the null space has dimensions. In the second
case the directions of the rounds span the null space, and the step is the minimizer of the model
there.

## The invariant

The number of rounds is the dimension of what was searched, and the projected gradient and the
direction are related to it as those of conjugate gradients are.
-/

namespace LogBarrier

open Extended Matrix Module Relation

namespace TangentialStep

/-- The model is strictly convex on the null space. -/
def Model.CurvesUp (model : Model Extended) (a : DenseMatrix Extended) : Prop :=
  ∀ v, Vec.InSpace a.cols v → v ≠ Vec.zeros a.cols → a.mulVec v = .ok (Vec.zeros a.rows) →
    ∃ w κ, model.hessian.apply v = .ok w ∧ Vec.dot w v = .ok κ ∧ 0 < κ

/-- The ball and the box are infinite. -/
structure Model.Unbounded (model : Model Extended) : Prop where
  radius : model.radius = posInf
  lower : ∀ l ∈ model.lower, l = negInf
  upper : ∀ u ∈ model.upper, u = posInf

/-- The vector is the only minimizer of the model on the null space. -/
structure Model.IsMinimizer (model : Model Extended) (a : DenseMatrix Extended)
    (c x : Vec Extended) : Prop where
  inSpace : Vec.InSpace a.cols x
  tangent : a.mulVec x = .ok (Vec.zeros a.rows)
  least : ∀ y, Vec.InSpace a.cols y → a.mulVec y = .ok (Vec.zeros a.rows) → y ≠ x →
    ∃ q r, model.value c x = .ok q ∧ model.value c y = .ok r ∧ q < r

variable {model : Model Extended} {a : DenseMatrix Extended} {ρ τ : ℝ} {s s' : State Extended}
  {c v x : Vec Extended} {m : ℕ} {report : TangentialReport}

/-! ## The invariant -/

/-- The directions of the rounds done are independent, and conjugate gradients have searched what
they span. -/
def State.HasSearched (model : Model Extended) (a : DenseMatrix Extended)
    (s : State Extended) : Prop :=
  ∃ K, Searched (model.hessian.asMatrix a.cols) a.nullSpace K (Vec.tuple a.cols s.gradient)
    (Vec.tuple a.cols s.direction) ∧ finrank ℝ K = s.rounds

theorem hasSearched_of_begins (hm : model.PosedOver a ρ) (hc : Vec.InSpace a.cols c)
    (h : Begins model c (Vec.zeros m) s) : s.HasSearched model a := by
  obtain ⟨htracks, hdirection⟩ := tracks_of_begins hm hc h
  refine ⟨⊥, ?_, (finrank_bot ℝ _).trans h.rounds_eq.symm⟩
  rw [hdirection, (hm.inSpace htracks.gradient).neg.2]
  exact Searched.start _ _ _

theorem hasSearched_of_fullRound (hm : model.PosedOver a ρ) (hsymm : model.hessian.IsSymmetric)
    (hτ : 0 < τ) (hfeasible : s.Feasible model ρ) (hs : s.Tracks model a c)
    (hsearched : s.HasSearched model a) (h : FullRound model (real τ) s s') :
    s'.HasSearched model a := by
  obtain ⟨K, hK, hrank⟩ := hsearched
  obtain ⟨-, γ, κ, -, -, hround⟩ := conjugateRound_of_fullRound hm hτ hfeasible hs h
  refine ⟨_, hK.next hround (hsymm.isSymm hm.hessian), ?_⟩
  rw [hK.finrank_next hround, hrank, h.rounds_eq]

theorem Visits.hasSearched (hm : model.PosedOver a ρ) (hsymm : model.hessian.IsSymmetric)
    (hc : Vec.InSpace a.cols c) (h : Visits model c (Vec.zeros m) s) : s.HasSearched model a := by
  refine (h.induction_feasible hm hc.isReal
    (P := fun s ↦ s.Tracks model a c ∧ s.HasSearched model a)
    (fun s hs ↦ ⟨(tracks_of_begins hm hc hs).1, hasSearched_of_begins hm hc hs⟩) ?_).2
  rintro τ s s' hτ hfeasible ⟨hs, hsearched⟩ hround
  exact ⟨tracks_of_fullRound hm hτ hfeasible hs hround,
    hasSearched_of_fullRound hm hsymm hτ hfeasible hs hsearched hround⟩

theorem Model.Over.roundLimit_eq (hm : model.Over a) : model.roundLimit = a.cols - a.rows := by
  have hregular := (hm.shaped fun _ ↦ False).projector
  rw [Model.roundLimit, hregular.variableCount, hregular.constraintCount]

/-- After as many rounds as the null space has dimensions, the projected gradient is zero. -/
theorem State.HasSearched.gradient_eq (hm : model.PosedOver a ρ) (hs : s.Tracks model a c)
    (h : s.HasSearched model a) (hrounds : s.rounds = model.roundLimit) :
    s.gradient = Vec.zeros a.cols := by
  obtain ⟨K, hK, hrank⟩ := h
  obtain ⟨hspace, hmem⟩ := hm.isExact.inNullSpace_iff_mem.mp hs.gradient
  refine hspace.ext (Vec.inSpace_zeros _) ?_
  rw [Vec.tuple_zeros]
  refine hK.gradient_eq_zero hmem ?_
  rw [hrank, hrounds, hm.toOver.roundLimit_eq, hm.isExact.finrank_nullSpace]

/-! ## The minimizer -/

theorem Model.CurvesUp.pos (hm : model.PosedOver a ρ) (h : model.CurvesUp a)
    (hv : model.projector.InNullSpace v) (hne : Vec.tuple a.cols v ≠ 0) :
    0 < model.hessian.asMatrix a.cols *ᵥ Vec.tuple a.cols v ⬝ᵥ Vec.tuple a.cols v := by
  have hspace := hm.inSpace hv
  obtain ⟨w, κ, hw, hκ, hpos⟩ := h v hspace
    (fun hzero ↦ hne (by rw [hzero, Vec.tuple_zeros]))
    ((hm.isExact.mulVec_eq_zeros_iff hspace).mpr hv)
  obtain ⟨hwspace, hwtuple⟩ := hm.hessian.tuple_apply hm.isReal_hessian hspace hw
  rw [hwspace.dot_eq hspace, hwtuple] at hκ
  cases hκ
  exact real_lt.mp hpos

/-- The directions of a strictly convex model have positive curvature, as long as the gradient is
not small. -/
theorem Model.CurvesUp.not_nonpos (hm : model.PosedOver a ρ) (h : model.CurvesUp a) (hτ : 0 < τ)
    (hfeasible : s.Feasible model ρ) (hs : s.Tracks model a c) {k : Extended}
    (hlarge : ¬s.gradientSq < real τ) (hk : Vec.dot s.image s.direction = .ok k) : ¬k ≤ 0 := by
  obtain ⟨γ, hγ⟩ := hfeasible.invariant.gradientSq
  obtain ⟨κ, rfl⟩ := (Vec.yields_dot hfeasible.invariant.image
    hfeasible.invariant.direction).of_eq_ok hk
  rw [hγ, real_lt, not_lt] at hlarge
  obtain ⟨-, -, hcurvature⟩ := hs.curvature hm hfeasible hk
  have hne : Vec.tuple a.cols s.direction ≠ 0 := fun hzero ↦ by
    have hslope := hs.slope
    rw [hzero, dotProduct_zero, hγ, toReal_real] at hslope
    linarith
  have hpos := h.pos hm hfeasible.confined.direction hne
  rw [hcurvature] at hpos
  rw [zero_eq, real_le]
  exact hpos.not_ge

/-- Where the projected gradient is zero, a strictly convex model has its only minimum. -/
theorem Model.PosedOver.isMinimizer (hm : model.PosedOver a ρ) (hsymm : model.hessian.IsSymmetric)
    (hup : model.CurvesUp a) (hc : Vec.InSpace a.cols c) (hx : model.projector.InNullSpace x)
    (h : model.reducedGradient c x = .ok (Vec.zeros a.cols)) : model.IsMinimizer a c x := by
  have hspace := hm.inSpace hx
  refine ⟨hspace, (hm.isExact.mulVec_eq_zeros_iff hspace).mpr hx, fun y hy htangent hne ↦
    ⟨_, _, hm.value_eq hc hspace, hm.value_eq hc hy, real_lt.mpr ?_⟩⟩
  obtain ⟨d, hd, htuple⟩ := hm.exists_sub ((hm.isExact.mulVec_eq_zeros_iff hy).mp htangent) hx
  obtain ⟨g, hg, -, hslope⟩ := hm.exists_reducedGradient hc hspace
  cases hg.symm.trans h
  have hflat := hslope d hd
  rw [Vec.tuple_zeros, zero_dotProduct] at hflat
  have hcurved := hup.pos hm hd fun hzero ↦ hne (hy.ext hspace
    (sub_eq_zero.mp (htuple.symm.trans hzero)))
  have hline : Vec.tuple a.cols y = Vec.tuple a.cols x + (1 : ℝ) • Vec.tuple a.cols d := by
    rw [htuple, one_smul, add_sub_cancel]
  rw [Model.form, Model.form, hline, quadratic_add_smul (hsymm.isSymm hm.hessian), ← Model.slope,
    hflat]
  linarith

/-! ## Endings without boundaries -/

theorem Model.Unbounded.inBox (h : model.Unbounded) (hx : Vec.IsReal x) :
    Vec.inBox x model.lower model.upper = true := by
  refine Vec.inBox_iff.mpr fun i b l u hb hl hu ↦ ?_
  obtain ⟨r, rfl⟩ := hx b (List.mem_of_getElem? hb)
  rw [h.lower l (List.mem_of_getElem? hl), h.upper u (List.mem_of_getElem? hu)]
  exact ⟨negInf_le_real r, real_le_posInf r⟩

theorem Model.Unbounded.not_radius_le (h : model.Unbounded) (hx : Vec.IsReal x) :
    ¬model.radius ≤ Vec.norm x := by
  obtain ⟨r, hr⟩ := hx.norm
  rw [h.radius, hr]
  exact id

/-- Without boundaries, a step ends because its gradient is small or because it used all rounds. -/
theorem unbounded_ends (hm : model.Over a) (hunbounded : model.Unbounded) (hup : model.CurvesUp a)
    (hc : Vec.InSpace a.cols c) (h : compute model c (Vec.zeros m) = .ok (x, report)) :
    report.hitsBoundary = false ∧ ∃ s₀ s, Begins model c (Vec.zeros m) s₀
      ∧ ReflTransGen (FullRound model (tolerance s₀.gradientSq)) s₀ s ∧ x = s.x
      ∧ (report.stop = .converged ∨ report.stop = .exhausted ∧ report.rounds = s.rounds
        ∧ s.rounds = model.roundLimit) := by
  obtain ⟨s, hs, hroom, -, -⟩ | ⟨s₀, s, r, hs₀, hpath, hending, hconclude⟩ := compute_ends h
  · -- There is room for a step in an infinite ball.
    obtain ⟨hinv, -, -⟩ := (yields_start hm.isReal hc.isReal m).of_eq_ok hs
    obtain ⟨r, hr⟩ := hinv.x.norm
    rw [hunbounded.radius, hr, posInf_sub_real, negligible, ofScientific_eq] at hroom
    cases hroom
  obtain ⟨ρ, hposed, hbegins, hvisits⟩ := hs₀.bounded hm hc.isReal hpath
  have hfeasible := hvisits.feasible hposed hc.isReal
  have htracks := hvisits.tracks hposed hc
  obtain ⟨τ, hτ, hτpos⟩ := hbegins.exists_tolerance hposed hc.isReal
  rw [hτ] at hending
  have hinBox := hunbounded.inBox hfeasible.invariant.x
  have hsame : ∀ stop, conclude model s stop false = (s.x, ⟨s.rounds, stop, false⟩) :=
    fun stop ↦ if_pos hinBox
  cases hending with
  | exhausted hused =>
    rw [hsame] at hconclude
    cases hconclude
    exact ⟨rfl, s₀, s, hs₀, hpath, rfl, .inr ⟨rfl, rfl, hused⟩⟩
  | converged hsmall =>
    rw [hsame] at hconclude
    cases hconclude
    exact ⟨rfl, s₀, s, hs₀, hpath, rfl, .inl rfl⟩
  | @lost k y hstep _ hlost =>
    -- No round ends outside of an infinite box.
    obtain ⟨_, _, _, _, _, _, _, hy, _⟩ := hstep.tuple_eq hposed hτpos hfeasible
    rw [State.noting, if_pos (hunbounded.inBox hy.isReal)] at hlost
    cases of_decide_eq_true hlost
  | boundary hmoves =>
    cases hmoves with
    | negativeCurvature hlarge hcurvature hnegative _ =>
      have hpositive := hup.not_nonpos hposed hτpos hfeasible htracks hlarge hcurvature
      exact absurd hnegative hpositive
    | ballBoundary hstep hleaves _ =>
      obtain ⟨_, _, _, _, _, _, _, hy, _⟩ := hstep.tuple_eq hposed hτpos hfeasible
      exact absurd hleaves (hunbounded.not_radius_le hy.isReal)

theorem isMinimizer_of_rounds (hm : model.Over a) (hsymm : model.hessian.IsSymmetric)
    (hup : model.CurvesUp a) (hc : Vec.InSpace a.cols c) {s₀ : State Extended}
    (hs₀ : Begins model c (Vec.zeros m) s₀)
    (hpath : ReflTransGen (FullRound model (tolerance s₀.gradientSq)) s₀ s)
    (hrounds : s.rounds = model.roundLimit) :
    model.reducedGradient c s.x = .ok (Vec.zeros a.cols) ∧ model.IsMinimizer a c s.x := by
  obtain ⟨ρ, hposed, hbegins, hvisits⟩ := hs₀.bounded hm hc.isReal hpath
  have hfeasible := hvisits.feasible hposed hc.isReal
  have htracks := hvisits.tracks hposed hc
  have hsearched := hvisits.hasSearched hposed hsymm hc
  have hgradient := htracks.reducedGradient_eq hposed hc hfeasible
  rw [hsearched.gradient_eq hposed htracks hrounds] at hgradient
  have hminimizer := hposed.isMinimizer hsymm hup hc hfeasible.confined.x hgradient
  exact ⟨hgradient, hminimizer.inSpace, hminimizer.tangent, hminimizer.least⟩

/-- **Finite termination.** A tangential step is always found. If neither the ball nor the box
restricted it, it is in both of them and in the null space, and if the iteration converged, the
projected gradient of the model is small there. Neither restricts the step of a strictly convex
model if both are infinite, and then, unless it converged before, it made as many rounds as the null
space has dimensions, and it is the minimizer of the model. -/
theorem compute_terminates (hm : model.Over a) (hradius : model.radius ≠ nan)
    (hc : Vec.InSpace a.cols c) :
    ∃ x report, compute model c (Vec.zeros a.rows) = .ok (x, report)
      ∧ (report.hitsBoundary = false → model.Undisturbed a c x report.stop)
      ∧ (model.hessian.IsSymmetric → model.CurvesUp a → model.Unbounded →
        report.hitsBoundary = false
          ∧ (report.stop = .converged
            ∨ report.stop = .exhausted ∧ report.rounds = a.cols - a.rows
              ∧ model.reducedGradient c x = .ok (Vec.zeros a.cols)
              ∧ model.IsMinimizer a c x)) := by
  obtain ⟨x, report, h⟩ := hm.exists_compute hc.length_eq
  refine ⟨x, report, h, undisturbed_of_hits_eq_false hm hradius hc h,
    fun hsymm hup hunbounded ↦ ?_⟩
  obtain ⟨hits, s₀, s, hs₀, hpath, rfl, hconverged | ⟨hexhausted, hreport, hrounds⟩⟩ :=
    unbounded_ends hm hunbounded hup hc h
  · exact ⟨hits, .inl hconverged⟩
  · exact ⟨hits, .inr ⟨hexhausted, hreport.trans (hrounds.trans hm.roundLimit_eq),
      isMinimizer_of_rounds hm hsymm hup hc hs₀ hpath hrounds⟩⟩

/-! ## A valley -/

section Valley

/-- The model of a valley without borders. -/
noncomputable def valley : Model Extended where
  hessian := .diagonal [real 1, real (2 : ℕ)]
  projector := ⟨DenseMatrix.zeros 2 0, DenseMatrix.zeros 0 0⟩
  radius := posInf
  lower := [negInf, negInf]
  upper := [posInf, posInf]

theorem over_valley : valley.Over (DenseMatrix.zeros 0 2) where
  hessian := ⟨.diagonal _, rfl, rfl⟩
  isReal_hessian := .diagonal (by simp [Vec.isReal_cons])
  isReal_matrix := DenseMatrix.isReal_zeros 0 2
  projector := Projector.belongsTo_of_ofMatrix rfl
  length_lower := rfl
  length_upper := rfl
  admitZero := by
    simp only [valley, Vec.admitZero_cons, zero_eq]
    have hborders := And.intro (negInf_le_real 0) (real_le_posInf 0)
    exact ⟨hborders, hborders, Vec.admitZero_nil⟩

theorem unbounded_valley : valley.Unbounded :=
  ⟨rfl, fun _ h ↦ List.eq_of_mem_replicate (n := 2) h,
    fun _ h ↦ List.eq_of_mem_replicate (n := 2) h⟩

theorem curvesUp_valley : valley.CurvesUp (DenseMatrix.zeros 0 2) := by
  intro v hv hne _
  obtain ⟨f, rfl⟩ := hv.exists_eq
  refine ⟨_, real (0 + f 0 * 1 * f 0 + f 1 * 2 * f 1), rfl, rfl, real_lt.mpr ?_⟩
  have hpos : 0 < Vec.sumSq (Vec.ofCoords 2 f) := (Vec.sumSq_nonneg _).lt_of_ne fun hzero ↦
    hne (Vec.eq_zeros_of_sumSq_eq_zero hv.isReal hzero.symm)
  rw [Vec.sumSq_ofCoords, Finset.sum_range_succ, Finset.sum_range_one] at hpos
  linarith [mul_self_nonneg (f 1)]

/-- A step in the valley is not restricted. -/
theorem valley_terminates : ∃ x report,
    compute valley [real (-1), real (-1)]
        (Vec.zeros (DenseMatrix.zeros 0 2 : DenseMatrix Extended).rows) = .ok (x, report)
      ∧ report.hitsBoundary = false
      ∧ valley.Undisturbed (DenseMatrix.zeros 0 2) [real (-1), real (-1)] x report.stop := by
  obtain ⟨x, report, h, hundisturbed, hends⟩ := compute_terminates over_valley nofun
    (c := [real (-1), real (-1)]) ⟨by simp [Vec.isReal_cons], rfl⟩
  obtain ⟨hits, -⟩ := hends (Operator.isSymmetric_diagonal _) curvesUp_valley unbounded_valley
  exact ⟨x, report, h, hits, hundisturbed hits⟩

end Valley

end TangentialStep

end LogBarrier
