import LogBarrier.Proofs.Exact.Projections
import LogBarrier.Proofs.TrustRegion.ExactSegment
import LogBarrier.Proofs.TrustRegion.Parts

/-!
# The residual of a normal step

A normal step is compared with the points on the way to the Newton point, the shortest solution of
`A x + b = 0`. At the part `t` of this way, the residual is `(1 - t) ‖b‖`. The straight candidate is
the furthest of these points that fits, so its residual is the least among them, and any other
candidate is taken only if its residual is smaller still.
-/

namespace LogBarrier

open Extended Matrix

namespace Vec

variable {n : ℕ} {x : Vec Extended}

theorem InSpace.onLine_zeros (hx : InSpace n x) (t : ℝ) :
    Vec.onLine (zeros n) x (real t) = Vec.scale x (real t) := by
  obtain ⟨hline, htuple⟩ := (inSpace_zeros n).onLine hx t
  obtain ⟨hscale, hscaled⟩ := hx.scale t
  refine hline.ext hscale ?_
  rw [htuple, hscaled, tuple_zeros, zero_add]

end Vec

namespace NormalStep

/-! ## How a step is found -/

section Candidates

variable {α : Type} [Scalar α] {a : DenseMatrix α} {p : Projector α} {b lower upper : Vec α}
  {radius : α} {r : Vec α × NormalKind}

/-- A step is the Newton point if this fits. Otherwise it is the furthest point on the way there, or
another one with a smaller residual. -/
theorem compute_eq_ok (h : compute a p b radius lower upper = .ok r) :
    ∃ u, p.minNormSolution b = .ok u
      ∧ ((Vec.inBox (Vec.neg u) lower upper = true ∧ Vec.norm (Vec.neg u) ≤ radius
          ∧ r.1 = Vec.neg u)
        ∨ ¬(Vec.inBox (Vec.neg u) lower upper = true ∧ Vec.norm (Vec.neg u) ≤ radius)
          ∧ ∃ straight, furthest (Vec.zeros (Vec.neg u).length) (Vec.neg u) lower upper radius =
              .ok straight
            ∧ (r.1 = straight ∨ ∃ s t, residual a b r.1 = .ok s ∧ residual a b straight = .ok t
              ∧ s < t)) := by
  obtain ⟨u, hu, h⟩ := bind_eq_ok_iff.mp h
  refine ⟨u, hu, ?_⟩
  dsimp only at h
  split at h
  next hfits =>
    cases h
    exact .inl ⟨hfits.1, hfits.2, rfl⟩
  next hfits =>
    obtain ⟨straight, hstraight, h⟩ := bind_eq_ok_iff.mp h
    refine .inr ⟨hfits, straight, hstraight, ?_⟩
    obtain ⟨g, -, h⟩ := bind_eq_ok_iff.mp h
    obtain ⟨w, -, h⟩ := bind_eq_ok_iff.mp h
    split at h
    · cases h
      exact .inl rfl
    · obtain ⟨bent, -, h⟩ := bind_eq_ok_iff.mp h
      obtain ⟨s, hs, h⟩ := bind_eq_ok_iff.mp h
      obtain ⟨t, ht, h⟩ := bind_eq_ok_iff.mp h
      obtain rfl := Except.ok.inj h
      split
      next hlt => exact .inr ⟨s, t, hs, ht, hlt⟩
      · exact .inl rfl

end Candidates

variable {a : DenseMatrix Extended} {p : Projector Extended} {b x lower upper : Vec Extended}
  {radius : Extended} {m n : ℕ}

/-! ## The Newton point -/

/-- The vector solves `a x + b = 0`. -/
def Solves (a : DenseMatrix Extended) (b x : Vec Extended) : Prop :=
  (a.mulVec x >>= (Vec.add · b)) = .ok (Vec.zeros a.rows)

/-- The vector is the only shortest solution of `a x + b = 0`. -/
structure IsNewtonPoint (a : DenseMatrix Extended) (b x : Vec Extended) : Prop where
  inSpace : Vec.InSpace a.cols x
  solves : Solves a b x
  shortest : ∀ y, Vec.InSpace a.cols y → Solves a b y → y ≠ x → Vec.norm x < Vec.norm y

theorem exists_sum (ha : a.InSpace m n) (hb : Vec.InSpace m b) (hx : Vec.InSpace n x) :
    ∃ z, (a.mulVec x >>= (Vec.add · b)) = .ok z ∧ Vec.InSpace m z
      ∧ Vec.tuple m z = a.asMatrix m n *ᵥ Vec.tuple n x + Vec.tuple m b := by
  obtain ⟨y, hy, hyspace, himage⟩ := ha.mulVec_eq_ok hx
  obtain ⟨z, hz, hzspace, hsum⟩ := hyspace.add_eq_ok hb
  rw [hy, ok_bind, ← himage]
  exact ⟨z, hz, hzspace, hsum⟩

theorem solves_iff (ha : a.IsReal) (hb : Vec.InSpace a.rows b) (hx : Vec.InSpace a.cols x) :
    Solves a b x ↔
      a.asMatrix a.rows a.cols *ᵥ Vec.tuple a.cols x + Vec.tuple a.rows b = 0 := by
  obtain ⟨z, hz, hzspace, hsum⟩ := exists_sum ⟨ha, rfl, rfl⟩ hb hx
  rw [Solves, hz, Except.ok.injEq, ← hsum, ← Vec.tuple_zeros]
  exact ⟨fun h ↦ h ▸ rfl, hzspace.ext (Vec.inSpace_zeros _)⟩

theorem residual_eq_ok (ha : a.InSpace m n) (hb : Vec.InSpace m b) (hx : Vec.InSpace n x) :
    residual a b x = .ok (real √((a.asMatrix m n *ᵥ Vec.tuple n x + Vec.tuple m b)
      ⬝ᵥ (a.asMatrix m n *ᵥ Vec.tuple n x + Vec.tuple m b))) := by
  obtain ⟨z, hz, hzspace, hsum⟩ := exists_sum ha hb hx
  have hresidual : residual a b x = (a.mulVec x >>= (Vec.add · b)) >>= fun z ↦ .ok (Vec.norm z) :=
    (bind_assoc _ _ _).symm
  rw [hresidual, hz, ok_bind, hzspace.norm_eq, hsum]

theorem isNewtonPoint_neg {u : Vec Extended} (hp : p.IsExact a) (hb : Vec.InSpace a.rows b)
    (hu : p.minNormSolution b = .ok u) : IsNewtonPoint a b (Vec.neg u) := by
  obtain ⟨_, hfound, hrow, hsolves⟩ := hp.minNormSolution_eq_ok hb
  obtain rfl := Except.ok.inj (hu.symm.trans hfound)
  obtain ⟨hspace, htuple⟩ := (hp.inRowSpace_iff.mp hrow).1.neg
  have hsum :
      a.asMatrix a.rows a.cols *ᵥ Vec.tuple a.cols (Vec.neg u) + Vec.tuple a.rows b = 0 := by
    rw [htuple, mulVec_neg, hsolves, neg_add_cancel]
  refine ⟨hspace, (solves_iff hp.matrix hb hspace).mpr hsum, fun y hy hys hne ↦ ?_⟩
  rw [solves_iff hp.matrix hb hy] at hys
  -- Two solutions differ by a vector of the null space.
  have hdifference : a.asMatrix a.rows a.cols
      *ᵥ (Vec.tuple a.cols y - Vec.tuple a.cols (Vec.neg u)) = 0 := by
    rw [mulVec_sub, sub_eq_zero]
    exact add_right_cancel (hys.trans hsum.symm)
  have hpythagoras := hp.sumSq_eq_add hrow.neg hy hdifference (add_sub_cancel _ _).symm
  have hlonger : 0 < (Vec.tuple a.cols y - Vec.tuple a.cols (Vec.neg u))
      ⬝ᵥ (Vec.tuple a.cols y - Vec.tuple a.cols (Vec.neg u)) :=
    dotProduct_self_pos (sub_ne_zero.mpr fun h ↦ hne (hy.ext hspace h))
  rw [Vec.norm_eq hspace.isReal, Vec.norm_eq hy.isReal, real_lt]
  exact Real.sqrt_lt_sqrt (Vec.sumSq_nonneg _) (by linarith)

theorem residual_scale (ha : a.IsReal) (hb : Vec.InSpace a.rows b) (hx : Vec.InSpace a.cols x)
    (hsolves : Solves a b x) {t : ℝ} (ht : t ≤ 1) :
    residual a b (Vec.scale x (real t)) = .ok (real (1 - t) * Vec.norm b) := by
  obtain ⟨hscale, htuple⟩ := hx.scale t
  rw [solves_iff ha hb hx] at hsolves
  have hsum : a.asMatrix a.rows a.cols *ᵥ Vec.tuple a.cols (Vec.scale x (real t))
      + Vec.tuple a.rows b = (1 - t) • Vec.tuple a.rows b := by
    rw [htuple, mulVec_smul, eq_neg_of_add_eq_zero_left hsolves, smul_neg, sub_smul, one_smul]
    abel
  rw [residual_eq_ok ⟨ha, rfl, rfl⟩ hb hscale, hsum, hb.norm_eq, real_mul, smul_dotProduct,
    dotProduct_smul, smul_eq_mul, smul_eq_mul, ← mul_assoc,
    Real.sqrt_mul (mul_self_nonneg (1 - t)), Real.sqrt_mul_self (sub_nonneg.mpr ht)]

/-! ## The straight candidate -/

theorem yields_furthest_greatest (hx : Vec.InSpace n x) (h : Vec.AdmitZero lower upper)
    (hlength : lower.length = upper.length) (hradius : 0 ≤ radius) (hne : x ≠ Vec.zeros n) :
    Yields (fun y ↦ ∃ τ : ℝ, y = Vec.scale x (real τ)
        ∧ IsGreatest (Segment.parameters (Vec.zeros n) x lower upper radius false) τ)
      (furthest (Vec.zeros x.length) x lower upper radius) := by
  have hmoves : ¬(Vec.norm x == (0 : Extended)) = true := by
    rw [Vec.norm_beq_zero_iff hx.isReal, hx.length_eq]
    exact hne
  have hstart : 0 ∈ Segment.parameters (Vec.zeros n) x lower upper radius false := by
    refine ⟨fun _ ↦ ⟨le_rfl, zero_le_one⟩, ?_⟩
    rw [Vec.onLine_start (Vec.IsReal.zeros n) hx.isReal ((Vec.length_zeros n).trans
      hx.length_eq.symm), Vec.norm_zeros]
    exact ⟨hradius, Vec.fits_zeros h n⟩
  rw [hx.length_eq]
  refine (Segment.yields_inBoxAndBall_greatest (Vec.IsReal.zeros n) hx.isReal h.admitPoint hlength
    hmoves hradius hstart).bind fun r hr ↦ ?_
  obtain ⟨first, τ, rfl, hgreatest⟩ := hr
  refine (Vec.yields_onLine (Vec.zeros n) x (real τ)).mono fun y hy ↦ ⟨τ, ?_, hgreatest⟩
  rw [hy, hx.onLine_zeros]

/-! ## The step that is taken -/

/-- The step is at least as good as a part of the way to the Newton point that is not less than any
part that fits. -/
theorem exists_part_of_compute (hp : p.IsExact a) (hb : Vec.InSpace a.rows b)
    (h : Vec.AdmitZero lower upper) (hlength : lower.length = upper.length) (hradius : 0 ≤ radius)
    {r : Vec Extended × NormalKind} (hr : compute a p b radius lower upper = .ok r) :
    ∃ newton, IsNewtonPoint a b newton
      ∧ (Vec.norm newton ≤ radius → Vec.Fits newton lower upper → r.1 = newton)
      ∧ ∃ τ ≤ 1, τ ∈ upperBounds (Segment.parameters (Vec.zeros a.cols) newton lower upper radius
          false)
        ∧ ∃ s, residual a b r.1 = .ok s ∧ s ≤ real (1 - τ) * Vec.norm b := by
  obtain ⟨u, hu, hcases⟩ := compute_eq_ok hr
  have hnewton := isNewtonPoint_neg hp hb hu
  have hpart := fun t ht ↦ residual_scale (t := t) hp.matrix hb hnewton.inSpace hnewton.solves ht
  have hne_nan : ∀ t : ℝ, real (1 - t) * Vec.norm b ≠ nan := fun t ↦ by
    rw [hb.norm_eq, real_mul]
    exact real_ne_nan _
  refine ⟨Vec.neg u, hnewton, ?_⟩
  obtain ⟨-, -, hfound⟩ | ⟨hfits, straight, hstraight, hbest⟩ := hcases
  · refine ⟨fun _ _ ↦ hfound, 1, le_rfl, fun t ht ↦ (ht.1 rfl).2, _, ?_, le_refl (hne_nan 1)⟩
    have hone : Vec.scale (Vec.neg u) (real 1) = Vec.neg u := by
      obtain ⟨hscale, htuple⟩ := hnewton.inSpace.scale 1
      exact hscale.ext hnewton.inSpace (htuple.trans (one_smul _ _))
    rw [hfound, ← hpart 1 le_rfl, hone]
  · have hne : Vec.neg u ≠ Vec.zeros a.cols := fun hzero ↦ hfits (by
      rw [hzero, Vec.norm_zeros, Vec.inBox_iff]
      exact ⟨Vec.fits_zeros h _, hradius⟩)
    obtain ⟨τ, rfl, hτ, hgreatest⟩ :=
      (yields_furthest_greatest hnewton.inSpace h hlength hradius hne).of_eq_ok hstraight
    have hle : τ ≤ 1 := (hτ.1 rfl).2
    refine ⟨fun hball hbox ↦ absurd ⟨Vec.inBox_iff.mpr hbox, hball⟩ hfits, τ, hle, hgreatest, ?_⟩
    obtain hfound | ⟨s, t, hs, ht, hlt⟩ := hbest
    · rw [hfound]
      exact ⟨_, hpart τ hle, le_refl (hne_nan τ)⟩
    · obtain rfl := Except.ok.inj (ht.symm.trans (hpart τ hle))
      exact ⟨s, hs, le_of_lt hlt⟩

/-- **Normal steps.** A normal step for a matrix of full row rank is always found, however the matrix
is factorized. It is in the ball, in the box and in the row space, and its residual is at most that
of every fitting point on the way to the Newton point. In particular the residual is not more than
at the origin, and it vanishes if the Newton point fits. -/
theorem compute_reduces_residual (ha : a.IsReal) (hp : p.BelongsTo a)
    (hb : Vec.InSpace a.rows b) (h : Vec.AdmitZero lower upper) (hlower : lower.length = a.cols)
    (hupper : upper.length = a.cols) (hradius : 0 ≤ radius) :
    ∃ x kind newton r, compute a p b radius lower upper = .ok (x, kind)
      ∧ (Vec.norm x ≤ radius ∧ Vec.Fits x lower upper)
      ∧ (∃ w, Vec.IsReal w ∧ a.trMulVec w = .ok x)
      ∧ IsNewtonPoint a b newton ∧ residual a b x = .ok r
      ∧ (∀ t : ℝ, 0 ≤ t → t ≤ 1 → Vec.norm (Vec.scale newton (real t)) ≤ radius →
        Vec.Fits (Vec.scale newton (real t)) lower upper → r ≤ real (1 - t) * Vec.norm b)
      ∧ r ≤ Vec.norm b
      ∧ (Vec.norm newton ≤ radius → Vec.Fits newton lower upper → Solves a b x) := by
  have hexact := hp.isExact ha
  obtain ⟨⟨x, kind⟩, hr, -⟩ :=
    (ensures_compute radius hexact.regular rfl rfl hb.length_eq hlower hupper).exists_ok
  obtain ⟨hrow, hball⟩ :=
    (yields_compute_row ha (hp.isFactored ha) hb.isReal h hradius).of_eq_ok hr
  obtain ⟨-, hbox⟩ := (yields_compute ha (hp.isReal ha) hb.isReal h radius).of_eq_ok hr
  obtain ⟨newton, hnewton, htaken, τ, hτ, hbound, r, hresidual, hle⟩ :=
    exists_part_of_compute hexact hb h (hlower.trans hupper.symm) hradius hr
  have hpart : ∀ t : ℝ, 0 ≤ t → t ≤ 1 → Vec.norm (Vec.scale newton (real t)) ≤ radius →
      Vec.Fits (Vec.scale newton (real t)) lower upper → r ≤ real (1 - t) * Vec.norm b := by
    intro t h₀ h₁ hnorm hfits
    rw [← hnewton.inSpace.onLine_zeros] at hnorm hfits
    have ht : t ≤ τ := hbound ⟨fun _ ↦ ⟨h₀, h₁⟩, hnorm, hfits⟩
    refine le_trans hle ?_
    rw [hb.norm_eq, real_mul, real_mul, real_le]
    exact mul_le_mul_of_nonneg_right (by linarith) (Real.sqrt_nonneg _)
  refine ⟨x, kind, newton, r, hr, ⟨hball, hbox⟩, hexact.exists_trMulVec_eq_ok hrow, hnewton,
    hresidual, hpart, ?_, fun hnorm hfits ↦ ?_⟩
  · have hzero : Vec.scale newton (real 0) = Vec.zeros a.cols := by
      obtain ⟨hscale, htuple⟩ := hnewton.inSpace.scale 0
      refine hscale.ext (Vec.inSpace_zeros _) ?_
      rw [htuple, zero_smul, Vec.tuple_zeros]
    have hstart := hpart 0 le_rfl zero_le_one
    rw [hzero, Vec.norm_zeros, sub_zero] at hstart
    refine le_trans (hstart hradius (Vec.fits_zeros h _)) ?_
    rw [hb.norm_eq, real_mul, one_mul]
    exact real_le.mpr le_rfl
  · obtain rfl : x = newton := htaken hnorm hfits
    exact hnewton.solves

noncomputable def incline : DenseMatrix Extended :=
  DenseMatrix.ofRows 2 [[real (3 : ℕ), real (4 : ℕ)]]

/-- The Newton point of the incline is out of reach, and the residual is reduced all the same. -/
theorem incline_reduces_residual : ∃ p x kind r, Projector.ofMatrix incline = .ok p
    ∧ compute incline p [real (-25)] (real 2) [negInf, real (-1)] [real 1, posInf] = .ok (x, kind)
    ∧ residual incline [real (-25)] x = .ok r ∧ r ≤ Vec.norm [real (-25)] := by
  have hreal : incline.IsReal := by
    refine DenseMatrix.isReal_ofRows fun r hr ↦ ?_
    rw [List.mem_singleton.mp hr]
    simp [Vec.isReal_cons]
  obtain ⟨p, hp, -⟩ := Projector.ofMatrix_of_row (a := incline) (r := [3, 4]) rfl rfl
    (by norm_num) (by change ((2 : ℕ) : ℝ) < _; norm_num)
  have hb : Vec.InSpace incline.rows [real (-25)] := ⟨by simp [Vec.isReal_cons], rfl⟩
  have hbounds : Vec.AdmitZero [negInf, real (-1)] [real 1, posInf] := by
    simp only [Vec.admitZero_cons, zero_eq, real_le]
    exact ⟨⟨negInf_le_real 0, zero_le_one⟩, ⟨by norm_num, real_le_posInf 0⟩, Vec.admitZero_nil⟩
  have hradius : 0 ≤ real 2 := real_le.mpr zero_le_two
  obtain ⟨x, kind, newton, r, hx, -, -, -, hr, -, hle, -⟩ :=
    compute_reduces_residual hreal (Projector.belongsTo_of_ofMatrix hp) hb hbounds rfl rfl hradius
  exact ⟨p, x, kind, r, hp, hx, hr, hle⟩

end NormalStep

end LogBarrier
