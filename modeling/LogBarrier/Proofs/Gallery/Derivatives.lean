import LogBarrier.Gallery.HockSchittkowski
import LogBarrier.Proofs.Gallery.Lagrangian
import LogBarrier.Proofs.Gallery.RandomQuadratic

/-!
# The derivatives of the gallery are exact

Problem 71 and the random quadratic programs come with derivatives that were worked out by hand. A
comparison with difference quotients only samples them. Here they are compared with the derivatives
of the values, at every point and for all multipliers.

## Spheres

The equality of problem 71 and the ball of a random program are one constraint with different radii.

## Problem 71

The objective and the inequality are polynomials of degree three and four. Their gradients and
Hessians follow from the product rule and are compared with what is answered entry by entry.

## Random programs

The gradient of the quadratic part is `q x + c` only because `q` is symmetric. A quadratic function
is its own Taylor polynomial, so the Lagrangian of a random program with its ball is known at all
distances from a point.
-/

namespace LogBarrier

open Extended Matrix

variable {n : ℕ}

/-! ## Spheres -/

namespace Constraints

/-- The constraint that compares the squared norm with a number. -/
def sphere {α : Type} [Scalar α] (s : α) : Constraints α where
  count := 1
  value x := .ok [Vec.normSq x - s]
  jacobian x := .ok (.dense (DenseMatrix.ofRows x.length [x.map (2.0 * ·)]))

theorem givenBy_sphere (n : ℕ) (s : ℝ) : (sphere (real s)).GivenBy n (fun _ u ↦ u ⬝ᵥ u - s)
    (fun _ u ↦ (2 : ℝ) • u) fun _ _ ↦ (2 : ℝ) • 1 where
  value_eq u := by
    have hnorm : Vec.normSq (Vec.ofTuple u) = real (u ⬝ᵥ u) := by
      rw [Vec.normSq, (Vec.inSpace_ofTuple u).dotSum_eq (Vec.inSpace_ofTuple u), Vec.tuple_ofTuple]
    change Except.ok [Vec.normSq (Vec.ofTuple u) - real s] = .ok [real (u ⬝ᵥ u - s)]
    rw [hnorm, real_sub]
  jacobian_eq u := by
    have hrow : (Vec.ofTuple u).map ((2.0 : Extended) * ·) = Vec.ofTuple ((2 : ℝ) • u) :=
      Vec.map_ofTuple (2 * ·) two_mul_real u
    have hreal : ∀ r ∈ [Vec.ofTuple ((2 : ℝ) • u)], Vec.IsReal r :=
      List.forall_mem_singleton.mpr (Vec.inSpace_ofTuple _).isReal
    obtain ⟨hspace, hmatrix⟩ := DenseMatrix.inSpace_ofRows hreal n
    refine ⟨_, ?_, hspace, fun i hi ↦ ?_⟩
    · exact congrArg₂ (fun k row ↦ Except.ok (Operator.dense (DenseMatrix.ofRows k [row])))
        (Vec.inSpace_ofTuple u).length_eq hrow
    · obtain rfl : i = 0 := Nat.lt_one_iff.mp hi
      exact (congrFun hmatrix 0).trans (Vec.tuple_ofTuple _)
  derivatives _ := HasDerivatives.dotProduct_self_sub n s

end Constraints

/-! ## Problem 71 -/

namespace Gallery.Problem71

def objectiveMatrix (u : Fin 4 → ℝ) : Matrix (Fin 4) (Fin 4) ℝ :=
  !![u 3 + u 3, u 3, u 3, u 0 + u 0 + u 1 + u 2;
    u 3, 0, 0, u 0;
    u 3, 0, 0, u 0;
    u 0 + u 0 + u 1 + u 2, u 0, u 0, 0]

def productMatrix (u : Fin 4 → ℝ) : Matrix (Fin 4) (Fin 4) ℝ :=
  !![0, u 2 * u 3, u 1 * u 3, u 1 * u 2;
    u 2 * u 3, 0, u 0 * u 3, u 0 * u 2;
    u 1 * u 3, u 0 * u 3, 0, u 0 * u 1;
    u 1 * u 2, u 0 * u 2, u 0 * u 1, 0]

theorem givenBy_objective : problem71.objective.GivenBy 4
    (fun u ↦ u 0 * u 3 * (u 0 + u 1 + u 2) + u 2)
    (fun u ↦ ![u 3 * (u 0 + (u 0 + u 1 + u 2)), u 0 * u 3, u 0 * u 3 + 1,
      u 0 * (u 0 + u 1 + u 2)]) objectiveMatrix where
  value_eq _ := rfl
  gradient_eq _ := rfl
  derivatives := by
    have hsum := ((HasDerivatives.coordinate (n := 4) 0).add (.coordinate 1)).add (.coordinate 2)
    have hproduct := ((HasDerivatives.coordinate (n := 4) 0).mul (.coordinate 3)).mul hsum
    -- What the rules give is made of unit vectors, so the comparison is entry by entry.
    refine (hproduct.add (.coordinate 2)).congr (fun _ ↦ rfl) (fun u ↦ funext fun i ↦ ?_)
      fun u ↦ Matrix.ext fun i j ↦ ?_
    · fin_cases i <;> simp <;> ring
    · fin_cases i <;> fin_cases j <;> simp [objectiveMatrix, vecMulVec_apply] <;> ring

theorem equality_eq_sphere : (equality : Constraints Extended) = .sphere (real 40) := by
  have hradius : (40.0 : Extended) = real 40 := by
    rw [ofScientific_eq]
    norm_num
  rw [← hradius]
  rfl

theorem givenBy_inequality : inequality.GivenBy 4 (fun _ u ↦ 25 - u 0 * u 1 * u 2 * u 3)
    (fun _ u ↦ ![-u 1 * u 2 * u 3, -u 0 * u 2 * u 3, -u 0 * u 1 * u 3, -u 0 * u 1 * u 2])
    fun _ u ↦ -productMatrix u where
  value_eq u := by
    change Except.ok [real (25.0 + -(1 * u 0 * u 1 * u 2 * u 3))] =
      .ok [real (25 - u 0 * u 1 * u 2 * u 3)]
    norm_num [sub_eq_add_neg]
  jacobian_eq u := by
    refine ⟨_, rfl, ⟨DenseMatrix.isReal_ofRows ?_, rfl, rfl⟩, fun i hi ↦ funext fun j ↦ ?_⟩
    · simp [Vec.isReal_cons]
    · obtain rfl : i = 0 := Nat.lt_one_iff.mp hi
      fin_cases j <;> rfl
  derivatives _ := by
    have hproduct := (((HasDerivatives.coordinate (n := 4) 0).mul (.coordinate 1)).mul
      (.coordinate 2)).mul (.coordinate 3)
    refine ((HasDerivatives.const 4 25).add (hproduct.const_mul (-1))).congr (fun u ↦ ?_)
      (fun u ↦ funext fun i ↦ ?_) fun u ↦ Matrix.ext fun i j ↦ ?_
    · ring
    · fin_cases i <;> simp <;> ring
    · fin_cases i <;> fin_cases j <;> simp [productMatrix, vecMulVec_apply] <;> ring

theorem objectiveHessian_inSpace (u : Fin 4 → ℝ) :
    (objectiveHessian (real (u 0)) (real (u 1)) (real (u 2)) (real (u 3))).InSpace 4 4
      ∧ (objectiveHessian (real (u 0)) (real (u 1)) (real (u 2)) (real (u 3))).asMatrix 4 4 =
        objectiveMatrix u := by
  rw [objectiveHessian, two_mul_real, two_mul_real, two_mul, two_mul]
  refine ⟨⟨DenseMatrix.isReal_ofRows ?_, rfl, rfl⟩, Matrix.ext fun i j ↦ ?_⟩
  · simp [Vec.isReal_cons]
  · fin_cases i <;> fin_cases j <;> rfl

theorem productHessian_inSpace (u : Fin 4 → ℝ) :
    (productHessian (real (u 0)) (real (u 1)) (real (u 2)) (real (u 3))).InSpace 4 4
      ∧ (productHessian (real (u 0)) (real (u 1)) (real (u 2)) (real (u 3))).asMatrix 4 4 =
        productMatrix u := by
  refine ⟨⟨DenseMatrix.isReal_ofRows ?_, rfl, rfl⟩, Matrix.ext fun i j ↦ ?_⟩
  · simp [Vec.isReal_cons]
  · fin_cases i <;> fin_cases j <;> rfl

theorem hessian_eq_ok (u : Fin 4 → ℝ) {v w : Vec Extended} (hv : Vec.IsReal v)
    (hw : Vec.IsReal w) : ∃ k : DenseMatrix Extended,
      hessian (Vec.ofTuple u) v w = .ok (.dense k) ∧ k.InSpace 4 4 ∧ k.asMatrix 4 4 =
        objectiveMatrix u - w.coord 0 • productMatrix u + (2 * v.coord 0) • 1 := by
  obtain ⟨hobjective, hobjectiveMatrix⟩ := objectiveHessian_inSpace u
  obtain ⟨hproduct, hproductMatrix⟩ := productHessian_inSpace u
  obtain ⟨hscaled, hscaledMatrix⟩ := hproduct.scale (w.coord 0)
  obtain ⟨hsub, hsubMatrix⟩ := hobjective.zipWith hscaled (· - ·) real_sub
  obtain ⟨hdiagonal, hdiagonalMatrix⟩ :=
    DenseMatrix.inSpace_diagonal_replicate 4 (2 * v.coord 0)
  obtain ⟨hadd, haddMatrix⟩ := hsub.zipWith hdiagonal (· + ·) real_add
  refine ⟨_, ?_, hadd, ?_⟩
  · rw [← two_mul_real, ← hv.headD_eq, ← hw.headD_eq]
    rfl
  · rw [haddMatrix, hsubMatrix, hscaledMatrix, hdiagonalMatrix, hobjectiveMatrix, hproductMatrix]
    rfl

theorem derivesExactly : problem71.objective.DerivesExactly equality inequality 4 := by
  rw [equality_eq_sphere]
  refine givenBy_objective.derivesExactly (Constraints.givenBy_sphere 4 40) givenBy_inequality
    fun u v w hv hw ↦ ?_
  obtain ⟨k, hk, hspace, hmatrix⟩ := hessian_eq_ok u hv hw
  refine ⟨k, hk, hspace, hmatrix.trans ?_⟩
  change _ = objectiveMatrix u + ∑ i ∈ Finset.range 1, v.coord i • (2 : ℝ) • 1
    + ∑ i ∈ Finset.range 1, w.coord i • -productMatrix u
  rw [Finset.sum_range_one, Finset.sum_range_one, smul_smul, smul_neg, mul_comm, sub_eq_add_neg,
    add_right_comm]

end Gallery.Problem71

/-! ## Random programs -/

namespace RandomQuadratic

variable {p : RandomQuadratic Extended} {m : ℕ}

namespace Drawn

variable (h : p.Drawn n m)

include h

theorem isSymm_quadratic : (p.quadratic.asMatrix n n).IsSymm := by
  obtain ⟨hspace, -⟩ := h.exists_factor
  rw [IsSymm, ← hspace.transpose.2, h.transpose_quadratic]

theorem givenBy_objective : p.objective.GivenBy n
    (LogBarrier.quadratic (p.quadratic.asMatrix n n) (Vec.tuple n p.linear))
    (fun u ↦ p.quadratic.asMatrix n n *ᵥ u + Vec.tuple n p.linear)
    fun _ ↦ p.quadratic.asMatrix n n where
  value_eq u := by
    obtain ⟨y, hy, hyspace, hytuple⟩ := h.exists_factor.1.mulVec_eq_ok (Vec.inSpace_ofTuple u)
    have hvalue : p.objective.value (Vec.ofTuple u) = (do
      let image ← p.quadratic.mulVec (Vec.ofTuple u)
      return 0.5 * (← Vec.dot (Vec.ofTuple u) image) + (← Vec.dot p.linear (Vec.ofTuple u))) := rfl
    rw [hvalue, hy, ok_bind, (Vec.inSpace_ofTuple u).dot_eq hyspace, ok_bind,
      h.linear.dot_eq (Vec.inSpace_ofTuple u), hytuple, Vec.tuple_ofTuple]
    change Except.ok (real (0.5 * _ + _)) = .ok (real (1 / 2 * _ + _))
    norm_num
  gradient_eq u := by
    obtain ⟨y, hy, hyspace, hytuple⟩ := h.exists_factor.1.mulVec_eq_ok (Vec.inSpace_ofTuple u)
    obtain ⟨g, hg, hgspace, hgtuple⟩ := hyspace.add_eq_ok h.linear
    have hgradient : p.objective.gradient (Vec.ofTuple u) =
        p.quadratic.mulVec (Vec.ofTuple u) >>= fun image ↦ Vec.add image p.linear := rfl
    rw [hgradient, hy, ok_bind, hg, hgspace.ext (Vec.inSpace_ofTuple _) ?_]
    rw [Vec.tuple_ofTuple, hgtuple, hytuple, Vec.tuple_ofTuple]
  derivatives := HasDerivatives.quadratic h.isSymm_quadratic _

theorem ball_eq_sphere : p.ball = .sphere (real (4 * 4)) := by
  rw [← real_mul, ← h.radius]
  rfl

theorem derivesExactly : p.objective.DerivesExactly .none p.ball n := by
  rw [h.ball_eq_sphere]
  refine h.givenBy_objective.derivesExactly (Constraints.givenBy_none n)
    (Constraints.givenBy_sphere n _) fun u v w _ hw ↦ ?_
  obtain ⟨hspace, hmatrix⟩ := h.hessian_inSpace hw
  refine ⟨_, rfl, hspace, hmatrix.trans ?_⟩
  change _ = _ + ∑ i ∈ Finset.range 0, v.coord i • 0
    + ∑ i ∈ Finset.range 1, w.coord i • (2 : ℝ) • 1
  rw [Finset.sum_range_zero, Finset.sum_range_one, add_zero, smul_smul, mul_comm]

/-- The Lagrangian is a quadratic function with the Hessian as its matrix. -/
theorem lagrangian_eq (v : Vec Extended) {w : Vec Extended} (hw : Vec.IsReal w) (u : Fin n → ℝ) :
    p.objective.lagrangian .none p.ball v w u =
      LogBarrier.quadratic ((p.hessian w).asMatrix n n) (Vec.tuple n p.linear) u
        - w.coord 0 * (4 * 4) := by
  rw [h.ball_eq_sphere, h.givenBy_objective.lagrangian_eq (Constraints.givenBy_none n)
    (Constraints.givenBy_sphere n _), (h.hessian_inSpace hw).2]
  change _ + ∑ i ∈ Finset.range 0, v.coord i * 0
    + ∑ i ∈ Finset.range 1, w.coord i * (u ⬝ᵥ u - 4 * 4) = _
  rw [Finset.sum_range_zero, Finset.sum_range_one, LogBarrier.quadratic, LogBarrier.quadratic,
    add_mulVec, smul_mulVec, one_mulVec, dotProduct_add, dotProduct_smul, smul_eq_mul]
  ring

end Drawn

/-- At every point and for all multipliers, the Lagrangian is the quadratic function of the step
that is predicted by the gradient and the Hessian at this point. -/
structure ExpandsExactly (p : RandomQuadratic Extended) (n : ℕ) : Prop where
  lagrangian_add : ∀ (x v w : Vec Extended) (d : Fin n → ℝ), Vec.InSpace n x → Vec.IsReal w →
    ∃ g H, p.objective.gradient x = .ok g ∧ p.objective.hessian x v w = .ok H
      ∧ p.objective.lagrangian .none p.ball v w (Vec.tuple n x + d) =
        p.objective.lagrangian .none p.ball v w (Vec.tuple n x)
          + (Vec.tuple n g + (2 * w.coord 0) • Vec.tuple n x) ⬝ᵥ d
          + 1 / 2 * (d ⬝ᵥ H.asMatrix n *ᵥ d)

theorem Drawn.expandsExactly (h : p.Drawn n m) : p.ExpandsExactly n := by
  constructor
  intro x v w d hx hw
  obtain ⟨u, rfl⟩ := hx.exists_eq_ofTuple
  obtain ⟨hspace, hmatrix⟩ := h.hessian_inSpace hw
  have hsymm : ((p.hessian w).asMatrix n n).IsSymm := by
    rw [hmatrix]
    exact h.isSymm_quadratic.add (isSymm_one.smul _)
  have hslope : (p.hessian w).asMatrix n n *ᵥ u + Vec.tuple n p.linear =
      p.quadratic.asMatrix n n *ᵥ u + Vec.tuple n p.linear + (2 * w.coord 0) • u := by
    rw [hmatrix, add_mulVec, smul_mulVec, one_mulVec, add_right_comm]
  have hexpansion := quadratic_add_smul (c := Vec.tuple n p.linear) (x := u) (d := d) hsymm 1
  rw [one_smul, hslope] at hexpansion
  refine ⟨_, _, h.givenBy_objective.gradient_eq u, rfl, ?_⟩
  rw [Vec.tuple_ofTuple, Vec.tuple_ofTuple, h.lagrangian_eq v hw, h.lagrangian_eq v hw, hexpansion,
    dotProduct_comm d]
  change _ = _ + _ + 1 / 2 * ((p.hessian w).asMatrix n n *ᵥ d ⬝ᵥ d)
  ring

end RandomQuadratic

/-! ## The gallery -/

namespace Gallery

open RandomQuadratic

variable {σ : Type} {draw : σ → Extended × σ}

/-- **The derivatives of the gallery are exact.** This holds for problem 71 with its nonlinear
constraints, and for every random program with its ball. The Lagrangian of a random program is given
exactly by its value, gradient and Hessian at any point. -/
theorem derivatives_exact (hdraw : DrawsUnit draw) (hn : 0 < n) (m : ℕ) (source : σ) :
    problem71.objective.DerivesExactly Problem71.equality Problem71.inequality 4
      ∧ ∃ p source', generate draw n m source = .ok (p, source')
        ∧ p.objective.DerivesExactly .none p.ball n ∧ p.ExpandsExactly n := by
  have hdrawn := drawn_generateFrom hdraw hn source (m := m)
  exact ⟨Problem71.derivesExactly, _, _, dif_pos hn, hdrawn.derivesExactly, hdrawn.expandsExactly⟩

/-- The gradient of problem 71 at its initial point, and the alternating program in two
variables. -/
theorem derivatives_of_alternating :
    problem71.objective.DifferentiableAt 4 [real 1, real 5, real 5, real 1]
        [real 12, real 1, real 2, real 11]
      ∧ ∃ p source', generate alternating 2 1 false = .ok (p, source')
        ∧ p.objective.DerivesExactly .none p.ball 2 ∧ p.ExpandsExactly 2 := by
  obtain ⟨hproblem, hrandom⟩ := derivatives_exact drawsUnit_alternating Nat.two_pos 1 false
  refine ⟨?_, hrandom⟩
  have hspace : Vec.InSpace 4 [real 1, real 5, real 5, real 1] :=
    ⟨by simp [Vec.isReal_cons], rfl⟩
  obtain ⟨g, hg⟩ := hproblem.gradient _ hspace
  have hvalue : Except.ok [real (1 * (1 + (1 + 5 + 5))), real (1 * 1), real (1 * 1 + 1),
      real (1 * (1 + 5 + 5))] = (.ok g : Except Fault (Vec Extended)) := hg.gradient_eq
  cases hvalue
  norm_num at hg
  exact hg

end Gallery

end LogBarrier
