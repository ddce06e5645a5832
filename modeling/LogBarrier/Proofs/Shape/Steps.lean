import LogBarrier.Proofs.Shape.Operator
import LogBarrier.Proofs.TrustRegion.Tangential

/-!
# Lengths of steps

The computation of a step does not fault if the matrix, its factors, the Hessian and the bounds
belong to one number of variables and one number of constraints. The entries do not matter: they may
be infinite or missing, and a segment may be empty.
-/

namespace LogBarrier

variable {α : Type} [Scalar α] {allowed : Fault → Prop} {m n : ℕ}

theorem Vec.ensures_clamp {x lower upper : Vec α} (hx : x.length = n) (hlower : lower.length = n)
    (hupper : upper.length = n) :
    Ensures allowed (fun z ↦ z.length = n) (Vec.clamp x lower upper) := by
  subst hx
  refine Vec.ensures_takeExactly ?_
  rw [List.length_map, List.length_zip, List.length_zip, hlower, hupper, Nat.min_self, Nat.min_self]

/-! ## Segments -/

namespace Segment

variable {z d lower upper : Vec α}

theorem ensures_slabs (segment : α × α) (hz : z.length = n) (hd : d.length = n)
    (hlower : lower.length = n) (hupper : upper.length = n) :
    Ensures allowed (fun _ ↦ True) (slabs z d lower upper segment) := by
  induction z generalizing n d lower upper segment with
  | nil =>
    rw [slabs]
    exact Ensures.ok trivial
  | cons x z ih =>
    obtain _ | n := n
    · cases hz
    obtain _ | ⟨v, d⟩ := d
    · cases hd
    obtain _ | ⟨l, lower⟩ := lower
    · cases hlower
    obtain _ | ⟨u, upper⟩ := upper
    · cases hupper
    have hrest := fun s ↦ ih s (Nat.succ.inj hz) (Nat.succ.inj hd) (Nat.succ.inj hlower)
      (Nat.succ.inj hupper)
    rw [slabs.eq_def]
    dsimp only
    split
    · exact Ensures.ok trivial
    split
    · split
      · exact Ensures.ok trivial
      · exact hrest segment
    · exact hrest _

theorem ensures_inBall (radius : α) (entire : Bool) (hz : z.length = n) (hd : d.length = n) :
    Ensures allowed (fun _ ↦ True) (inBall z d radius entire) := by
  rw [inBall]
  split
  · exact Ensures.pure trivial
  split
  · exact Ensures.pure trivial
  refine (Vec.ensures_dot hd hd).bind fun _ _ ↦ (Vec.ensures_dot hz hd).bind fun _ _ ↦
    (Vec.ensures_dot hz hz).bind fun _ _ ↦ ?_
  dsimp only
  split <;> exact Ensures.pure trivial

theorem ensures_inBox (entire : Bool) (hz : z.length = n) (hd : d.length = n)
    (hlower : lower.length = n) (hupper : upper.length = n) :
    Ensures allowed (fun _ ↦ True) (inBox z d lower upper entire) := by
  rw [inBox]
  split
  · exact Ensures.pure trivial
  refine (ensures_slabs _ hz hd hlower hupper).bind fun r _ ↦ ?_
  obtain _ | ⟨a, b⟩ := r <;> exact Ensures.pure trivial

theorem ensures_inBoxAndBall (radius : α) (entire : Bool) (hz : z.length = n) (hd : d.length = n)
    (hlower : lower.length = n) (hupper : upper.length = n) :
    Ensures allowed (fun _ ↦ True) (inBoxAndBall z d lower upper radius entire) := by
  refine (ensures_inBox entire hz hd hlower hupper).bind fun r _ ↦ ?_
  obtain _ | ⟨a, b⟩ := r
  · exact Ensures.pure trivial
  refine (ensures_inBall radius entire hz hd).bind fun q _ ↦ ?_
  obtain _ | ⟨s, t⟩ := q <;> exact Ensures.pure trivial

end Segment

/-! ## The normal step -/

namespace NormalStep

variable {a : DenseMatrix α} {p : Projector α} {b z d lower upper : Vec α}

theorem ensures_furthest (radius : α) (hz : z.length = n) (hd : d.length = n)
    (hlower : lower.length = n) (hupper : upper.length = n) :
    Ensures allowed (fun x ↦ x.length = n) (furthest z d lower upper radius) :=
  (Segment.ensures_inBoxAndBall radius false hz hd hlower hupper).bind fun _ _ ↦
    Vec.ensures_add hz ((Vec.length_scale _ _).trans hd)

theorem ensures_residual {x : Vec α} (hcols : a.cols = n) (hx : x.length = n)
    (hb : b.length = a.rows) : Ensures allowed (fun _ ↦ True) (residual a b x) :=
  (DenseMatrix.ensures_mulVec (hx.trans hcols.symm)).bind fun _ hy ↦
    (Vec.ensures_add hy hb).bind fun _ _ ↦ Ensures.pure trivial

theorem ensures_doglegPoint {newton cauchy : Vec α} (radius : α) (hnewton : newton.length = n)
    (hcauchy : cauchy.length = n) (hlower : lower.length = n) (hupper : upper.length = n) :
    Ensures allowed (fun x ↦ x.length = n) (doglegPoint newton cauchy lower upper radius) := by
  refine (Vec.ensures_sub hnewton hcauchy).bind fun leg hleg ↦
    (Segment.ensures_inBoxAndBall radius false hcauchy hleg hlower hupper).bind fun r _ ↦ ?_
  obtain _ | ⟨first, last⟩ := r
  · exact ensures_furthest radius ((Vec.length_zeros _).trans hnewton) hcauchy hlower hupper
  · exact Vec.ensures_add hcauchy ((Vec.length_scale _ _).trans hleg)

theorem ensures_compute (radius : α) (hp : p.Regular allowed m n) (hrows : a.rows = m)
    (hcols : a.cols = n) (hb : b.length = m) (hlower : lower.length = n)
    (hupper : upper.length = n) :
    Ensures allowed (fun r ↦ r.1.length = n) (compute a p b radius lower upper) := by
  refine (Projector.ensures_minNormSolution hp hb).bind fun u hu ↦ ?_
  have hnewton : (Vec.neg u).length = n := (Vec.length_neg u).trans hu
  dsimp only
  split
  · exact Ensures.pure hnewton
  refine (ensures_furthest radius ((Vec.length_zeros _).trans hnewton) hnewton hlower hupper).bind
    fun straight hstraight ↦ (DenseMatrix.ensures_trMulVec (hb.trans hrows.symm)).bind fun g hg ↦
      (DenseMatrix.ensures_mulVec hg).bind fun w _ ↦ ?_
  split
  · exact Ensures.pure hstraight
  refine (ensures_doglegPoint radius hnewton ((Vec.length_scale _ _).trans (hg.trans hcols)) hlower
    hupper).bind fun bent hbent ↦
      (ensures_residual hcols hbent (hb.trans hrows.symm)).bind fun _ _ ↦
        (ensures_residual hcols hstraight (hb.trans hrows.symm)).bind fun _ _ ↦ Ensures.pure ?_
  split
  · exact hbent
  · exact hstraight

end NormalStep

/-! ## The tangential step -/

namespace TangentialStep

variable {model : Model α} {s : State α} {c x : Vec α}

/-- The parts of the model belong to `m` constraints and `n` variables. -/
structure Model.Shaped (allowed : Fault → Prop) (model : Model α) (m n : ℕ) : Prop where
  hessian : model.hessian.HasShape n n
  projector : model.projector.Regular allowed m n
  lower : model.lower.length = n
  upper : model.upper.length = n

structure State.Shaped (s : State α) (n : ℕ) : Prop where
  x : s.x.length = n
  inside : s.inside.length = n
  gradient : s.gradient.length = n
  direction : s.direction.length = n
  image : s.image.length = n

theorem ensures_start (hm : model.Shaped allowed m n) {b : Vec α} (hc : c.length = n)
    (hb : b.length = m) : Ensures allowed (fun s ↦ s.Shaped n) (start model c b) := by
  refine (Projector.ensures_minNormSolution hm.projector hb).bind fun u hu ↦ ?_
  have hx : (Vec.neg u).length = n := (Vec.length_neg u).trans hu
  refine (hm.hessian.ensures_apply hx).bind fun w hw ↦ (Vec.ensures_add hw hc).bind fun v hv ↦
    (Projector.ensures_toNullSpace hm.projector hv).bind fun residual hresidual ↦
      (Projector.ensures_toNullSpace hm.projector hresidual).bind fun gradient hgradient ↦ ?_
  have hdirection : (Vec.neg gradient).length = n := (Vec.length_neg _).trans hgradient
  exact (hm.hessian.ensures_apply hdirection).bind fun image himage ↦ Ensures.pure
    ⟨hx, (Vec.length_zeros _).trans hm.projector.variableCount, hresidual, hdirection, himage⟩

theorem ensures_alongNegativeCurvature (hm : model.Shaped allowed m n) (hs : s.Shaped n) :
    Ensures allowed (fun x ↦ x.length = n) (alongNegativeCurvature model s) := by
  refine (Segment.ensures_inBoxAndBall model.radius true hs.x hs.direction hm.lower hm.upper).bind
    fun r _ ↦ ?_
  obtain _ | ⟨first, last⟩ := r
  · exact Vec.ensures_clamp hs.x hm.lower hm.upper
  · dsimp only
    split
    · exact (Vec.ensures_add hs.x ((Vec.length_scale _ _).trans hs.direction)).bind fun x hx ↦
        Vec.ensures_clamp hx hm.lower hm.upper
    · exact Vec.ensures_clamp hs.x hm.lower hm.upper

theorem ensures_towardsBoundary (hm : model.Shaped allowed m n) (hs : s.Shaped n) {step : Vec α}
    (hstep : step.length = n) :
    Ensures allowed (fun x ↦ x.length = n) (towardsBoundary model s step) := by
  refine (Segment.ensures_inBoxAndBall model.radius false hs.x hstep hm.lower hm.upper).bind
    fun r _ ↦ ?_
  obtain _ | ⟨first, last⟩ := r
  · exact Vec.ensures_clamp hs.x hm.lower hm.upper
  · exact (Vec.ensures_add hs.x ((Vec.length_scale _ _).trans hstep)).bind fun x hx ↦
      Vec.ensures_clamp hx hm.lower hm.upper

theorem ensures_advance (hm : model.Shaped allowed m n) (hs : s.Shaped n) (t : α)
    (hx : x.length = n) : Ensures allowed (fun s' ↦ s'.Shaped n) (advance model s t x) := by
  refine (Vec.ensures_add hs.gradient ((Vec.length_scale _ _).trans hs.image)).bind
    fun residual hresidual ↦
      (Projector.ensures_toNullSpace hm.projector hresidual).bind fun gradient hgradient ↦
        (Vec.ensures_sub ((Vec.length_scale _ _).trans hs.direction) hgradient).bind
          fun direction hdirection ↦ (hm.hessian.ensures_apply hdirection).bind
            fun image himage ↦ Ensures.pure ⟨hx, hs.inside, hgradient, hdirection, himage⟩

omit [Scalar α] in
theorem State.Shaped.counted (hs : s.Shaped n) : s.counted.Shaped n :=
  ⟨hs.x, hs.inside, hs.gradient, hs.direction, hs.image⟩

theorem State.Shaped.noting (hs : s.Shaped n) (hx : x.length = n) :
    (s.noting model x).Shaped n := by
  rw [State.noting]
  split
  · exact ⟨hs.x, hx, hs.gradient, hs.direction, hs.image⟩
  · exact ⟨hs.x, hs.inside, hs.gradient, hs.direction, hs.image⟩

theorem ensures_iterate (hm : model.Shaped allowed m n) (tol : α) (limit left : ℕ)
    (hs : s.Shaped n) :
    Ensures allowed (fun r ↦ r.1.x.length = n ∧ r.1.inside.length = n)
      (iterate model tol limit left s) := by
  induction left generalizing s with
  | zero => exact Ensures.ok ⟨hs.x, hs.inside⟩
  | succ left ih =>
    rw [iterate]
    split
    · exact Ensures.ok ⟨hs.x, hs.inside⟩
    refine (Vec.ensures_dot hs.image hs.direction).bind fun curvature _ ↦ ?_
    split
    · exact (ensures_alongNegativeCurvature hm hs.counted).bind fun x hx ↦
        Ensures.pure ⟨hx, hs.inside⟩
    have hstep : (Vec.scale s.direction (s.gradientSq / curvature)).length = n :=
      (Vec.length_scale _ _).trans hs.direction
    refine (Vec.ensures_add hs.x hstep).bind fun x hx ↦ ?_
    have hnoting : (s.counted.noting model x).Shaped n := hs.counted.noting hx
    split
    · exact (ensures_towardsBoundary hm hs.counted hstep).bind fun y hy ↦
        Ensures.pure ⟨hy, hs.inside⟩
    split
    · exact Ensures.pure ⟨hnoting.x, hnoting.inside⟩
    · exact (ensures_advance hm hnoting _ hx).bind fun s' hs' ↦ ih hs'

theorem ensures_compute (hm : model.Shaped allowed m n) {b : Vec α} (hc : c.length = n)
    (hb : b.length = m) : Ensures allowed (fun r ↦ r.1.length = n) (compute model c b) := by
  refine (ensures_start hm hc hb).bind fun s hs ↦ ?_
  split
  · exact Ensures.pure hs.x
  · refine (ensures_iterate hm _ _ _ hs).bind fun r hr ↦ Ensures.pure ?_
    rw [conclude]
    split
    · exact hr.1
    · exact hr.2

end TangentialStep

end LogBarrier
