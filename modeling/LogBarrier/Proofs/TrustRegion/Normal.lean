import LogBarrier.Proofs.Exact.Factorization
import LogBarrier.Proofs.TrustRegion.Segment
import LogBarrier.TrustRegion.Normal

/-!
# Normal steps in a box

Every way in which a normal step can end leads to a point in the box: the Newton point is taken only
after it was tested, and all other points are ends of segments in the box.
-/

namespace LogBarrier

open Extended

namespace NormalStep

variable {a : DenseMatrix Extended} {p : Projector Extended} {b z d lower upper : Vec Extended}

theorem yields_furthest (hz : Vec.IsReal z) (hd : Vec.IsReal d) (h : Vec.AdmitZero lower upper)
    (hfits : Vec.Fits z lower upper) (radius : Extended) :
    Yields (fun x ↦ Vec.IsReal x ∧ Vec.Fits x lower upper) (furthest z d lower upper radius) := by
  refine (Segment.yields_inBoxAndBall hz hd h radius false).bind fun r hr ↦ ?_
  obtain _ | ⟨first, last⟩ := r
  · refine (Vec.yields_onLine z d 0).mono fun x hx ↦ ?_
    rw [Vec.onLine_zero hz hd] at hx
    rw [hx]
    exact ⟨hz.take _, hfits.take _⟩
  · obtain ⟨hmem, hlast⟩ := hr first last rfl
    obtain ⟨t, rfl, -⟩ := hlast rfl
    refine (Vec.yields_onLine z d (real t)).mono fun x hx ↦ ?_
    rw [hx]
    exact ⟨hz.onLine hd ⟨t, rfl⟩, hmem t rfl⟩

theorem yields_residual (ha : a.IsReal) (hb : Vec.IsReal b) {x : Vec Extended}
    (hx : Vec.IsReal x) : Yields Extended.IsReal (residual a b x) :=
  (DenseMatrix.yields_mulVec ha hx).bind fun _ hy ↦ (Vec.yields_add hy hb).bind fun _ hz ↦
    Ensures.pure hz.norm

theorem yields_doglegPoint {newton cauchy : Vec Extended} (hnewton : Vec.IsReal newton)
    (hcauchy : Vec.IsReal cauchy) (h : Vec.AdmitZero lower upper) (radius : Extended) :
    Yields (fun x ↦ Vec.IsReal x ∧ Vec.Fits x lower upper)
      (doglegPoint newton cauchy lower upper radius) := by
  refine (Vec.yields_sub hnewton hcauchy).bind fun leg hleg ↦
    (Segment.yields_inBoxAndBall hcauchy hleg h radius false).bind fun r hr ↦ ?_
  obtain _ | ⟨first, last⟩ := r
  · exact yields_furthest (Vec.IsReal.zeros _) hcauchy h (Vec.fits_zeros h _) radius
  · obtain ⟨hmem, hlast⟩ := hr first last rfl
    obtain ⟨t, rfl, -⟩ := hlast rfl
    refine (Vec.yields_onLine cauchy leg (real t)).mono fun x hx ↦ ?_
    rw [hx]
    exact ⟨hcauchy.onLine hleg ⟨t, rfl⟩, hmem t rfl⟩

/-! ## The candidates -/

/-- What has to be shown of the candidates for a normal step: the ends of the dogleg have the one
property, and the points that fit have the other. -/
structure CandidateRule (a : DenseMatrix Extended) (p : Projector Extended)
    (b lower upper : Vec Extended) (radius : Extended) (I P : Vec Extended → Prop) : Prop where
  isReal : ∀ x, P x → Vec.IsReal x
  newton : ∀ u, p.minNormSolution b = .ok u → I (Vec.neg u)
  cauchy : ∀ g t, a.trMulVec b = .ok g → I (Vec.scale g (real t))
  fitting : ∀ x, I x → Vec.inBox x lower upper = true → Vec.norm x ≤ radius → P x
  straight : ∀ x, I x → Yields P (furthest (Vec.zeros x.length) x lower upper radius)
  bent : ∀ x y, I x → I y → Yields P (doglegPoint x y lower upper radius)

/-- The rule for a normal step, however it is found. -/
theorem CandidateRule.yields_compute {radius : Extended} {I P : Vec Extended → Prop}
    (rule : CandidateRule a p b lower upper radius I P) (ha : a.IsReal) (hp : p.IsReal)
    (hb : Vec.IsReal b) : Yields (fun r ↦ P r.1) (compute a p b radius lower upper) := by
  refine (Projector.yields_minNormSolution hp hb).bind_eq fun u hu _ ↦ ?_
  have hnewton := rule.newton u hu
  dsimp only
  split
  next hfits => exact Ensures.pure (rule.fitting _ hnewton hfits.1 hfits.2)
  refine (rule.straight _ hnewton).bind fun straight hstraight ↦
    (DenseMatrix.yields_trMulVec ha hb).bind_eq fun g hg hgreal ↦
      (DenseMatrix.yields_mulVec ha hgreal).bind fun w hw ↦ ?_
  split
  · exact Ensures.pure hstraight
  next hcurvature =>
    obtain ⟨c, hc⟩ := hw.normSq
    have hc0 : c ≠ 0 := by
      rintro rfl
      exact hcurvature (by rw [hc]; exact real_beq.mpr rfl)
    -- The quotient is a real number because the zero curvature has been sorted out.
    obtain ⟨t, ht⟩ : (-Vec.normSq g / Vec.normSq w).IsReal := by
      rw [hc]
      exact hgreal.normSq.neg.div (isReal_real c) hc0
    rw [ht]
    refine (rule.bent _ _ hnewton (rule.cauchy g t hg)).bind fun bent hbent ↦
      (yields_residual ha hb (rule.isReal bent hbent)).bind fun _ _ ↦
        (yields_residual ha hb (rule.isReal straight hstraight)).bind fun _ _ ↦ Ensures.pure ?_
    split
    · exact hbent
    · exact hstraight

theorem candidateRule_box (ha : a.IsReal) (hp : p.IsReal) (hb : Vec.IsReal b)
    (h : Vec.AdmitZero lower upper) (radius : Extended) :
    CandidateRule a p b lower upper radius Vec.IsReal fun x ↦
      Vec.IsReal x ∧ Vec.Fits x lower upper where
  isReal _ hx := hx.1
  newton _ hu := ((Projector.yields_minNormSolution hp hb).of_eq_ok hu).neg
  cauchy _ t hg := ((DenseMatrix.yields_trMulVec ha hb).of_eq_ok hg).scale (isReal_real t)
  fitting _ hx hbox _ := ⟨hx, Vec.inBox_iff.mp hbox⟩
  straight _ hx := yields_furthest (Vec.IsReal.zeros _) hx h (Vec.fits_zeros h _) radius
  bent _ _ hx hy := yields_doglegPoint hx hy h radius

/-- A normal step consists of real numbers and is in the box. -/
theorem yields_compute (ha : a.IsReal) (hp : p.IsReal) (hb : Vec.IsReal b)
    (h : Vec.AdmitZero lower upper) (radius : Extended) :
    Yields (fun r ↦ Vec.IsReal r.1 ∧ Vec.Fits r.1 lower upper)
      (compute a p b radius lower upper) :=
  (candidateRule_box ha hp hb h radius).yields_compute ha hp hb

end NormalStep

end LogBarrier
