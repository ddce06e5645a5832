import LogBarrier.Proofs.Exact.Euclidean
import LogBarrier.Proofs.TrustRegion.Endings

/-!
# Tangential steps in the ball and in the box

A tangential step is in the ball and in the box on every exit, whatever the Hessian is: it need
neither be symmetric nor have a sign, so any of the exits may be taken.

## Both at once

The box is established last. On two exits the result is moved into the box, entry by entry, and on
the others it is replaced by an earlier iterate if it is outside. Neither leads out of the ball: all
iterates are in the ball, and an entry that is moved into the box comes closer to zero, since the
box contains the origin.
-/

namespace LogBarrier

open Extended

/-- Moving a vector into a box around the origin does not make it longer. -/
theorem Vec.sumSq_clamp_le {x y lower upper : Vec Extended} (hx : IsReal x)
    (h : AdmitZero lower upper) (hy : clamp x lower upper = .ok y) : sumSq y ≤ sumSq x := by
  obtain ⟨-, hlength, hcloser⟩ := (yields_clamp_closer hx (IsReal.zeros x.length)
    (length_zeros _).symm (fits_zeros h _)).of_eq_ok hy
  rw [sumSq, sumSq, hlength]
  refine Finset.sum_le_sum fun i hi ↦ ?_
  have hle := hcloser i (Finset.mem_range.mp hi)
  rw [coord_zeros, sub_zero, sub_zero] at hle
  exact abs_le_iff_mul_self_le.mp hle

namespace TangentialStep

variable {model : Model Extended} {a : DenseMatrix Extended} {ρ : ℝ} {c x : Vec Extended}

/-- What is reached is in the ball, also if it was moved into the box. -/
theorem Model.Reaches.sumSq_le (hm : model.IsReal) (h : model.Reaches ρ x) :
    Vec.sumSq x ≤ ρ ^ 2 := by
  obtain ⟨y, ⟨hnull, hball⟩, rfl | hclamp⟩ := h
  · exact hball
  · exact (Vec.sumSq_clamp_le hnull.isReal hm.admitZero hclamp).trans hball

/-- **Containment.** A tangential step is always found, and it is in the ball and in the box. -/
theorem compute_contained (hm : model.Over a) (hradius : 0 ≤ model.radius)
    (hc : Vec.InSpace a.cols c) :
    ∃ x report, compute model c (Vec.zeros a.rows) = .ok (x, report)
      ∧ Vec.norm x ≤ model.radius ∧ Vec.Fits x model.lower model.upper := by
  obtain ⟨x, report, h⟩ := hm.exists_compute hc.length_eq
  obtain ⟨hreal, hfits⟩ := (yields_compute hm.isReal hc.isReal a.rows).of_eq_ok h
  refine ⟨x, report, h, ?_, hfits⟩
  rcases real_le_iff.mp hradius with hinf | ⟨ρ, hρ, hradius⟩
  · obtain ⟨r, hr⟩ := hreal.norm
    rw [hinf, hr]
    exact real_le_posInf r
  · have hreaches := (yields_compute_null hm.isReal hm.isFactored hradius hc.isReal
      a.rows).of_eq_ok h
    rw [hradius, Vec.norm_le_iff hreal hρ]
    exact Model.Reaches.sumSq_le hm.isReal hreaches

/-! ## A ridge -/

section Ridge

/-- The model of a ridge, along which it falls without end. -/
noncomputable def ridge : Model Extended where
  hessian := .diagonal [real (-1)]
  projector := ⟨DenseMatrix.zeros 1 0, DenseMatrix.zeros 0 0⟩
  radius := real (2 : ℕ)
  lower := [negInf]
  upper := [real 1]

theorem over_ridge : ridge.Over (DenseMatrix.zeros 0 1) where
  hessian := ⟨.diagonal _, rfl, rfl⟩
  isReal_hessian := .diagonal (by simp [Vec.isReal_cons])
  isReal_matrix := DenseMatrix.isReal_zeros 0 1
  projector := Projector.belongsTo_of_ofMatrix rfl
  length_lower := rfl
  length_upper := rfl
  admitZero := by
    simp only [ridge, Vec.admitZero_cons, zero_eq, real_le]
    exact ⟨⟨negInf_le_real 0, zero_le_one⟩, Vec.admitZero_nil⟩

/-- A step along the ridge ends in the box. -/
theorem ridge_contained : ∃ x report,
    compute ridge [real (-1)] (Vec.zeros (DenseMatrix.zeros 0 1 : DenseMatrix Extended).rows) =
      .ok (x, report) ∧ Vec.norm x ≤ real 2 ∧ Vec.Fits x [negInf] [real 1] :=
  compute_contained over_ridge (real_le.mpr zero_le_two) ⟨by simp [Vec.isReal_cons], rfl⟩

end Ridge

end TangentialStep

end LogBarrier
