import LogBarrier.Proofs.Exact.Subspaces
import LogBarrier.Proofs.TrustRegion.Ball
import LogBarrier.Proofs.TrustRegion.Tangential

/-!
# The two parts of a step

A normal step is in the row space of the constraint matrix and in its ball, and the conjugate
gradient iteration of a tangential step stays in the null space and in its ball, whichever way they
end.

## Clipping

A tangential step that ends at the boundary is moved into the box, and then it may leave the null
space. What is known of it is that it comes from a vector of the null space in the ball.
-/

namespace LogBarrier

open Extended

namespace Projector

variable {p : Projector Extended} {x d : Vec Extended}

theorem InRowSpace.onLine (hx : p.InRowSpace x) (hd : p.InRowSpace d) (t : ℝ) :
    p.InRowSpace (Vec.onLine x d (real t)) := by
  refine hx.add (hd.scale t) (Vec.combine_eq_ok_iff.mpr ⟨?_, rfl⟩)
  rw [hx.length_eq, (hd.scale t).length_eq]

theorem InNullSpace.onLine (hx : p.InNullSpace x) (hd : p.InNullSpace d) (t : ℝ) :
    p.InNullSpace (Vec.onLine x d (real t)) := by
  refine hx.add (hd.scale t) (Vec.combine_eq_ok_iff.mpr ⟨?_, rfl⟩)
  rw [hx.length_eq, (hd.scale t).length_eq]

end Projector

/-! ## The normal step -/

namespace NormalStep

variable {a : DenseMatrix Extended} {p : Projector Extended} {b z d lower upper : Vec Extended}
  {radius : Extended}

theorem yields_furthest_row (hz : p.InRowSpace z) (hd : p.InRowSpace d)
    (h : Vec.AdmitZero lower upper) (hradius : 0 ≤ radius) (hball : Vec.norm z ≤ radius) :
    Yields (fun x ↦ p.InRowSpace x ∧ Vec.norm x ≤ radius)
      (furthest z d lower upper radius) := by
  have hsegment := (Segment.yields_inBoxAndBall hz.isReal hd.isReal h radius false).and
    (Segment.yields_inBoxAndBall_norm hz.isReal hd.isReal h hradius)
  refine hsegment.bind fun r hr ↦ ?_
  obtain _ | ⟨first, last⟩ := r
  · refine (Vec.yields_onLine z d 0).mono fun x hx ↦ ?_
    rw [Vec.onLine_zero hz.isReal hd.isReal, List.take_of_length_le
      (hz.length_eq.trans hd.length_eq.symm).le] at hx
    rw [hx]
    exact ⟨hz, hball⟩
  · obtain ⟨t, rfl, -⟩ := (hr.1 first last rfl).2 rfl
    refine (Vec.yields_onLine z d (real t)).mono fun x hx ↦ ?_
    rw [hx]
    exact ⟨hz.onLine hd t, hr.2 first t rfl⟩

theorem yields_furthest_zeros {newton : Vec Extended} (hd : p.InRowSpace d)
    (hlength : newton.length = p.variableCount) (h : Vec.AdmitZero lower upper)
    (hradius : 0 ≤ radius) :
    Yields (fun x ↦ p.InRowSpace x ∧ Vec.norm x ≤ radius)
      (furthest (Vec.zeros newton.length) d lower upper radius) := by
  rw [hlength]
  refine yields_furthest_row (Projector.InRowSpace.zeros p) hd h hradius ?_
  rwa [Vec.norm_zeros]

theorem yields_doglegPoint_row {newton cauchy : Vec Extended} (hnewton : p.InRowSpace newton)
    (hcauchy : p.InRowSpace cauchy) (h : Vec.AdmitZero lower upper) (hradius : 0 ≤ radius) :
    Yields (fun x ↦ p.InRowSpace x ∧ Vec.norm x ≤ radius)
      (doglegPoint newton cauchy lower upper radius) := by
  refine (Vec.yields_sub hnewton.isReal hcauchy.isReal).bind_eq fun leg hsub _ ↦ ?_
  have hleg : p.InRowSpace leg := hnewton.sub hcauchy hsub
  have hsegment := (Segment.yields_inBoxAndBall hcauchy.isReal hleg.isReal h radius false).and
    (Segment.yields_inBoxAndBall_norm hcauchy.isReal hleg.isReal h hradius)
  refine hsegment.bind fun r hr ↦ ?_
  obtain _ | ⟨first, last⟩ := r
  · exact yields_furthest_zeros hcauchy hnewton.length_eq h hradius
  · obtain ⟨t, rfl, -⟩ := (hr.1 first last rfl).2 rfl
    refine (Vec.yields_onLine cauchy leg (real t)).mono fun x hx ↦ ?_
    rw [hx]
    exact ⟨hcauchy.onLine hleg t, hr.2 first t rfl⟩

theorem candidateRule_ball (ha : a.IsReal)
    (hfactored : a.transpose.IsFactored p.orthogonal p.triangular) (hb : Vec.IsReal b)
    (h : Vec.AdmitZero lower upper) (hradius : 0 ≤ radius) :
    CandidateRule a p b lower upper radius p.InRowSpace fun x ↦
      p.InRowSpace x ∧ Vec.norm x ≤ radius where
  isReal _ hx := hx.1.isReal
  newton _ hu := (Projector.inRowSpace_of_minNormSolution
    ⟨hfactored.isReal_orthogonal, hfactored.isReal_triangular⟩ hb hu).neg
  cauchy _ t hg := (Projector.inRowSpace_of_trMulVec ha hfactored hb hg).scale t
  fitting _ hx _ hnorm := ⟨hx, hnorm⟩
  straight _ hx := yields_furthest_zeros hx hx.length_eq h hradius
  bent _ _ hx hy := yields_doglegPoint_row hx hy h hradius

theorem yields_compute_row (ha : a.IsReal)
    (hfactored : a.transpose.IsFactored p.orthogonal p.triangular) (hb : Vec.IsReal b)
    (h : Vec.AdmitZero lower upper) (hradius : 0 ≤ radius) :
    Yields (fun r ↦ p.InRowSpace r.1 ∧ Vec.norm r.1 ≤ radius)
      (compute a p b radius lower upper) :=
  (candidateRule_ball ha hfactored hb h hradius).yields_compute ha
    ⟨hfactored.isReal_orthogonal, hfactored.isReal_triangular⟩ hb

end NormalStep

/-! ## The tangential step -/

theorem Vec.sumSq_lt_of_not_le {x : Vec Extended} {ρ : ℝ} (hx : Vec.IsReal x)
    (h : ¬real ρ ≤ Vec.norm x) : Vec.sumSq x < ρ ^ 2 := by
  rw [Vec.norm_eq hx, real_le, not_le] at h
  exact Real.lt_sq_of_sqrt_lt h

namespace TangentialStep

variable {a : DenseMatrix Extended} {model : Model Extended} {s s' : State Extended}
  {c x y : Vec Extended} {ρ : ℝ}

/-- The vector is in the null space and in the ball of the given radius. -/
def Model.Confines (model : Model Extended) (ρ : ℝ) (x : Vec Extended) : Prop :=
  model.projector.InNullSpace x ∧ Vec.sumSq x ≤ ρ ^ 2

/-- The vector is confined, or it is a confined one that was moved into the box. -/
def Model.Reaches (model : Model Extended) (ρ : ℝ) (y : Vec Extended) : Prop :=
  ∃ x, model.Confines ρ x ∧ (y = x ∨ Vec.clamp x model.lower model.upper = .ok y)

/-- What holds of the state at the start of every round besides the invariant for the box. -/
structure State.Confined (model : Model Extended) (ρ : ℝ) (s : State Extended) : Prop where
  x : model.projector.InNullSpace s.x
  x_lt : Vec.sumSq s.x < ρ ^ 2
  inside : model.Confines ρ s.inside
  direction : model.projector.InNullSpace s.direction

theorem Model.Confines.reaches (hx : model.Confines ρ x) : model.Reaches ρ x :=
  ⟨x, hx, .inl rfl⟩

theorem Model.Confines.yields_clamp (hm : model.IsReal) (hx : model.Confines ρ x) :
    Yields (model.Reaches ρ) (Vec.clamp x model.lower model.upper) :=
  (Vec.yields_clamp hx.1.isReal hm.admitZero.admitReals).mono_eq fun _ hy _ ↦ ⟨x, hx, .inr hy⟩

theorem State.Confined.confines (hs : s.Confined model ρ) : model.Confines ρ s.x :=
  ⟨hs.x, hs.x_lt.le⟩

theorem State.Confined.counted (hs : s.Confined model ρ) : s.counted.Confined model ρ :=
  ⟨hs.x, hs.x_lt, hs.inside, hs.direction⟩

theorem State.Confined.noting (hs : s.Confined model ρ) (hx : model.Confines ρ x) :
    (s.noting model x).Confined model ρ := by
  rw [State.noting]
  split
  · exact ⟨hs.x, hs.x_lt, hx, hs.direction⟩
  · exact ⟨hs.x, hs.x_lt, hs.inside, hs.direction⟩

/-! ### One round -/

section Round

variable (hm : model.IsReal) (hρ : model.radius = real ρ)

include hm hρ

theorem yields_alongNegativeCurvature_null (hs : s.Confined model ρ) :
    Yields (model.Reaches ρ) (alongNegativeCurvature model s) := by
  rw [alongNegativeCurvature, hρ]
  refine (Segment.yields_inBoxAndBall_real hs.x.isReal hs.direction.isReal hm.admitZero
    (.inr hs.x_lt)).bind fun q hq ↦ ?_
  obtain _ | ⟨first, last⟩ := q
  · exact hs.confines.yields_clamp hm
  · dsimp only
    split
    next hfinite =>
      obtain ⟨t, rfl⟩ := isFinite_iff.mp hfinite
      refine (Vec.yields_onLine s.x s.direction (real t)).bind fun x hx ↦ ?_
      have hconfines : model.Confines ρ x := by
        rw [hx]
        exact ⟨hs.x.onLine hs.direction t, hq first t rfl⟩
      exact hconfines.yields_clamp hm
    · exact hs.confines.yields_clamp hm

theorem yields_towardsBoundary_null (hs : s.Confined model ρ) (t : ℝ) :
    Yields (model.Reaches ρ) (towardsBoundary model s (Vec.scale s.direction (real t))) := by
  have hstep := hs.direction.scale t
  rw [towardsBoundary, hρ]
  have hsegment :=
    (Segment.yields_inBoxAndBall hs.x.isReal hstep.isReal hm.admitZero (real ρ) false).and
      (Segment.yields_inBoxAndBall_real hs.x.isReal hstep.isReal hm.admitZero (.inl rfl))
  refine hsegment.bind fun q hq ↦ ?_
  obtain _ | ⟨first, last⟩ := q
  · exact hs.confines.yields_clamp hm
  · obtain ⟨r, rfl, -⟩ := (hq.1 first last rfl).2 rfl
    refine (Vec.yields_onLine s.x _ (real r)).bind fun x hx ↦ ?_
    have hconfines : model.Confines ρ x := by
      rw [hx]
      exact ⟨hs.x.onLine hstep r, hq.2 first r rfl⟩
    exact hconfines.yields_clamp hm

end Round

/-- The next direction is a combination of the last one and of a projected gradient. -/
theorem confined_of_advance
    (hfactored : a.transpose.IsFactored model.projector.orthogonal model.projector.triangular)
    (hinv : s.Invariant model) (hs : s.Confined model ρ) (hgradient : s.gradientSq.toReal ≠ 0)
    (t : ℝ) (hx : model.projector.InNullSpace x) (hlt : Vec.sumSq x < ρ ^ 2)
    (h : advance model s (real t) x = .ok s') : s'.Confined model ρ := by
  obtain ⟨residual, hresidual, h⟩ := bind_eq_ok_iff.mp h
  obtain ⟨gradient, hprojected, h⟩ := bind_eq_ok_iff.mp h
  obtain ⟨direction, hdirection, h⟩ := bind_eq_ok_iff.mp h
  obtain ⟨image, -, h⟩ := bind_eq_ok_iff.mp h
  cases h
  have hreal := (Vec.yields_add hinv.gradient (hinv.image.scale (isReal_real t))).of_eq_ok hresidual
  have hnull := Projector.inNullSpace_of_toNullSpace hfactored hreal hprojected
  obtain ⟨r, hr⟩ := hnull.isReal.normSq.div hinv.gradientSq hgradient
  rw [hr] at hdirection
  exact ⟨hx, hlt, hs.inside, (hs.direction.scale r).sub hnull hdirection⟩

theorem roundRule_null (hm : model.IsReal)
    (hfactored : a.transpose.IsFactored model.projector.orthogonal model.projector.triangular)
    (hρ : model.radius = real ρ) :
    RoundRule model (fun s ↦ s.Invariant model ∧ s.Confined model ρ) fun s ↦
      model.Reaches ρ s.x ∧ model.Confines ρ s.inside := by
  -- A full step leads to a confined vector, since it is only made if it ends in the ball.
  have hfull : ∀ (s : State Extended) (t : ℝ) (x : Vec Extended), s.Confined model ρ →
      Vec.add s.x (Vec.scale s.direction (real t)) = .ok x → ¬model.radius ≤ Vec.norm x →
      model.projector.InNullSpace x ∧ Vec.sumSq x < ρ ^ 2 := by
    intro s t x hs hadd hball
    have hx := hs.x.add (hs.direction.scale t) hadd
    exact ⟨hx, Vec.sumSq_lt_of_not_le hx.isReal (hρ ▸ hball)⟩
  constructor
  case isReal => exact fun s hs ↦ hs.1.toIsReal
  case done => exact fun s hs ↦ ⟨hs.2.confines.reaches, hs.2.inside⟩
  case alongNegativeCurvature =>
    exact fun s hs ↦ (yields_alongNegativeCurvature_null hm hρ hs.2.counted).mono fun x hx ↦
      ⟨hx, hs.2.inside⟩
  case towardsBoundary =>
    exact fun s t hs ↦ (yields_towardsBoundary_null hm hρ hs.2.counted t).mono fun x hx ↦
      ⟨hx, hs.2.inside⟩
  case lost =>
    intro s t x hs hadd hball
    obtain ⟨hx, hlt⟩ := hfull s t x hs.2 hadd hball
    have hnoting := hs.2.counted.noting ⟨hx, hlt.le⟩
    exact ⟨hnoting.confines.reaches, hnoting.inside⟩
  case advance =>
    intro s t x hs hgradient hadd hball
    obtain ⟨hx, hlt⟩ := hfull s t x hs.2 hadd hball
    have hinv := hs.1.counted.noting hx.isReal
    have hgradient' : (s.counted.noting model x).gradientSq.toReal ≠ 0 := by
      rwa [State.gradientSq_noting, State.counted]
    exact (yields_advance hm hinv (isReal_real t) hgradient' hx.isReal).mono_eq
      fun s' hs' hinv' ↦ ⟨hinv', confined_of_advance hfactored hinv
        (hs.2.counted.noting ⟨hx, hlt.le⟩) hgradient' t hx hlt hs'⟩

/-! ### All rounds -/

theorem confined_of_start (hm : model.IsReal)
    (hfactored : a.transpose.IsFactored model.projector.orthogonal model.projector.triangular)
    {m : ℕ} (h : start model c (Vec.zeros m) = .ok s) (hinv : s.Invariant model)
    (hzero : ∀ a ∈ s.x, a = 0) :
    s.x = Vec.zeros model.projector.variableCount
      ∧ s.inside = Vec.zeros model.projector.variableCount
      ∧ model.projector.InNullSpace s.direction := by
  obtain ⟨u, hu, h⟩ := bind_eq_ok_iff.mp h
  obtain ⟨image, -, h⟩ := bind_eq_ok_iff.mp h
  obtain ⟨sum, -, h⟩ := bind_eq_ok_iff.mp h
  obtain ⟨residual, -, h⟩ := bind_eq_ok_iff.mp h
  obtain ⟨gradient, hprojected, h⟩ := bind_eq_ok_iff.mp h
  obtain ⟨_, -, h⟩ := bind_eq_ok_iff.mp h
  cases h
  have hrow := Projector.inRowSpace_of_minNormSolution hm.projector (Vec.IsReal.zeros m) hu
  exact ⟨List.eq_replicate_iff.mpr ⟨hrow.neg.length_eq, hzero⟩, rfl,
    (Projector.inNullSpace_of_toNullSpace hfactored hinv.gradient hprojected).neg⟩

theorem Model.confines_zeros (model : Model Extended) (ρ : ℝ) :
    model.Confines ρ (Vec.zeros model.projector.variableCount) := by
  refine ⟨Projector.InNullSpace.zeros _, ?_⟩
  rw [Vec.sumSq_zeros]
  exact sq_nonneg ρ

/-- The starting point is confined if the ball is not negligible, since then the origin is not on
its sphere. -/
theorem confined_of_room (hm : model.IsReal)
    (hfactored : a.transpose.IsFactored model.projector.orthogonal model.projector.triangular)
    (hρ : model.radius = real ρ) {m : ℕ} (h : start model c (Vec.zeros m) = .ok s)
    (hinv : s.Invariant model) (hzero : ∀ a ∈ s.x, a = 0)
    (hroom : ¬model.radius - Vec.norm s.x < negligible) : s.Confined model ρ := by
  obtain ⟨hx, hinside, hdirection⟩ := confined_of_start hm hfactored h hinv hzero
  have hzeros := model.confines_zeros ρ
  have hpos : 0 < ρ := by
    rw [hρ, hx, Vec.norm_zeros, zero_eq, real_sub, sub_zero, negligible, ofScientific_eq, real_lt,
      not_lt] at hroom
    exact lt_of_lt_of_le (by norm_num) hroom
  refine ⟨hx ▸ hzeros.1, ?_, hinside ▸ hzeros, hdirection⟩
  rw [hx, Vec.sumSq_zeros]
  exact sq_pos_of_pos hpos

/-- A tangential step comes from a vector of the null space in the ball. -/
theorem yields_compute_null (hm : model.IsReal)
    (hfactored : a.transpose.IsFactored model.projector.orthogonal model.projector.triangular)
    (hρ : model.radius = real ρ) (hc : Vec.IsReal c) (m : ℕ) :
    Yields (fun r ↦ model.Reaches ρ r.1) (compute model c (Vec.zeros m)) := by
  refine (yields_start hm hc m).bind_eq fun s hstart hs ↦ ?_
  obtain ⟨hinv, hzero, hgradient⟩ := hs
  obtain ⟨hx, -, -⟩ := confined_of_start hm hfactored hstart hinv hzero
  split
  · exact Ensures.pure (hx ▸ (model.confines_zeros ρ).reaches)
  next hroom =>
    obtain ⟨τ, htol, hτ⟩ := tolerance_pos hinv.gradientSq hgradient
    have hconfined := confined_of_room hm hfactored hρ hstart hinv hzero hroom
    rw [htol]
    refine ((roundRule_null hm hfactored hρ).yields_iterate hτ _ _ ⟨hinv, hconfined⟩).bind
      fun r hr ↦ Ensures.pure ?_
    rw [conclude]
    split
    · exact hr.1
    · exact hr.2.reaches

end TangentialStep

end LogBarrier
