import LogBarrier.Gallery.RandomQuadratic
import LogBarrier.Proofs.Barrier.Checks
import LogBarrier.Proofs.Exact.Matrices
import Mathlib.Algebra.Order.Star.Real
import Mathlib.LinearAlgebra.Matrix.PosDef

/-!
# Random quadratic programs are convex and strictly feasible

A random program is drawn from a source of numbers in the half-open unit interval. Of the source
nothing else is used, so what is shown holds for every seed and for every sequence of draws.

## Convexity

The matrix of the quadratic part is `Fᵀ F + 1` for the matrix `F` that was drawn. Its quadratic form
at `x` is the sum of `‖F x‖²` and `‖x‖²`. A multiplier `v` of the ball adds `2 v` to the diagonal of
the Hessian, which does not spoil this as long as `v` is not negative.

## Feasibility

An offset is the negative of a number between one and two, so the residual at the origin is
negative. There the constraints of the ball and of the cube have the same slack in all directions.
-/

namespace LogBarrier

open Extended Matrix

namespace RandomQuadratic

variable {σ : Type} {draw : σ → Extended × σ} {p : RandomQuadratic Extended} {n m : ℕ} {v : ℝ}

/-! ## Draws -/

/-- The scalar is a real number in the half-open unit interval. -/
def InUnit (a : Extended) : Prop := ∃ u : ℝ, a = real u ∧ 0 ≤ u ∧ u < 1

/-- Every draw is a number in the half-open unit interval. -/
def DrawsUnit (draw : σ → Extended × σ) : Prop := ∀ source, InUnit (draw source).1

theorem forall_mem_draws (hdraw : DrawsUnit draw) (count : ℕ) (source : σ) :
    (draws draw count source).1.length = count ∧ ∀ a ∈ (draws draw count source).1, InUnit a := by
  induction count generalizing source with
  | zero => exact ⟨rfl, fun a ha ↦ (List.not_mem_nil ha).elim⟩
  | succ count ih =>
    obtain ⟨hlength, hunit⟩ := ih (draw source).2
    exact ⟨congrArg (· + 1) hlength, List.forall_mem_cons.mpr ⟨hdraw source, hunit⟩⟩

theorem forall_mem_drawColumns (hdraw : DrawsUnit draw) (rows count : ℕ) (source : σ) :
    (drawColumns draw rows count source).1.length = count
      ∧ ∀ c ∈ (drawColumns draw rows count source).1, ∀ a ∈ c, InUnit a := by
  induction count generalizing source with
  | zero => exact ⟨rfl, fun c hc ↦ (List.not_mem_nil hc).elim⟩
  | succ count ih =>
    obtain ⟨hlength, hunit⟩ := ih (draws draw rows source).2
    exact ⟨congrArg (· + 1) hlength,
      List.forall_mem_cons.mpr ⟨(forall_mem_draws hdraw rows source).2, hunit⟩⟩

theorem stretch_real (w u : ℝ) : stretch (real w) (real u) = real ((u * 2 - 1) * w) := by
  change real ((u * 2.0 + -1) * w) = _
  norm_num [sub_eq_add_neg]

theorem isReal_map_stretch {x : Vec Extended} (hx : ∀ a ∈ x, InUnit a) (w : ℝ) :
    Vec.IsReal (x.map (stretch (real w))) := by
  intro b hb
  obtain ⟨a, ha, rfl⟩ := List.mem_map.mp hb
  obtain ⟨u, rfl, -⟩ := hx a ha
  rw [stretch_real]
  exact isReal_real _

theorem drawMatrix_inSpace (hdraw : DrawsUnit draw) (w : ℝ) (rows cols : ℕ) (source : σ) :
    (drawMatrix draw (real w) rows cols source).1.InSpace rows cols := by
  obtain ⟨hlength, hunit⟩ := forall_mem_drawColumns hdraw rows cols source
  refine ⟨DenseMatrix.isReal_ofColumns fun c hc ↦ ?_, rfl, (List.length_map _).trans hlength⟩
  obtain ⟨x, hx, rfl⟩ := List.mem_map.mp hc
  exact isReal_map_stretch (hunit x hx) w

/-- What is known of the parts of a program that was drawn. -/
structure Drawn (p : RandomQuadratic Extended) (n m : ℕ) : Prop where
  quadratic : ∃ factor : DenseMatrix Extended, factor.InSpace n n
    ∧ p.quadratic = quadraticOf n factor
  linear : Vec.InSpace n p.linear
  matrix : p.matrix.InSpace m n
  length_offset : p.offset.length = m
  offset : ∀ t ∈ p.offset, ∃ r : ℝ, t = real r ∧ -2 < r ∧ r ≤ -1
  radius : p.radius = real 4

theorem drawn_generateFrom (hdraw : DrawsUnit draw) (h : 0 < n) (source : σ) :
    (generateFrom draw n m h source).1.Drawn n m where
  quadratic := ⟨_, drawMatrix_inSpace hdraw 1 n n source, rfl⟩
  linear := by
    obtain ⟨hlength, hunit⟩ :=
      forall_mem_draws hdraw n (drawMatrix draw (real 1) n n source).2
    exact ⟨isReal_map_stretch hunit 3.0, (List.length_map _).trans hlength⟩
  matrix := drawMatrix_inSpace hdraw 2.0 m n _
  length_offset := (List.length_map _).trans (forall_mem_draws hdraw m _).1
  offset := by
    intro t ht
    obtain ⟨a, ha, rfl⟩ := List.mem_map.mp ht
    obtain ⟨u, rfl, hnonneg, hlt⟩ := (forall_mem_draws hdraw m _).2 a ha
    refine ⟨_, congrArg (fun b ↦ -(1.5 + b)) (stretch_real 0.5 u), ?_, ?_⟩
    · norm_num
      linarith
    · norm_num
      linarith
  radius := by
    change real 4.0 = _
    norm_num

/-! ## Convexity -/

theorem inSpace_quadraticOf {factor : DenseMatrix Extended} (h : factor.InSpace n n) :
    (quadraticOf n factor).InSpace n n ∧ (quadraticOf n factor).asMatrix n n =
      1 + (factor.asMatrix n n)ᵀ * factor.asMatrix n n := by
  obtain ⟨hidentity, hone⟩ := DenseMatrix.inSpace_identity n
  obtain ⟨hgram, hproduct⟩ := h.gram
  rw [← hone, ← hproduct]
  exact hidentity.zipWith hgram (· + ·) fun a b ↦ by rw [real_add, add_comm]

theorem dotProduct_one_add_mulVec (F : Matrix (Fin n) (Fin n) ℝ) (x : Fin n → ℝ) :
    x ⬝ᵥ (1 + Fᵀ * F) *ᵥ x = x ⬝ᵥ x + F *ᵥ x ⬝ᵥ F *ᵥ x := by
  rw [add_mulVec, one_mulVec, dotProduct_add, ← mulVec_mulVec, dotProduct_mulVec, vecMul_transpose]

namespace Drawn

variable (h : p.Drawn n m)

include h

/-- The matrix of the quadratic part is the sum of the identity and a Gram matrix. -/
theorem exists_factor : p.quadratic.InSpace n n
    ∧ ∃ F : Matrix (Fin n) (Fin n) ℝ, p.quadratic.asMatrix n n = 1 + Fᵀ * F := by
  obtain ⟨factor, hfactor, hquadratic⟩ := h.quadratic
  obtain ⟨hspace, hmatrix⟩ := inSpace_quadraticOf hfactor
  rw [hquadratic]
  exact ⟨hspace, _, hmatrix⟩

theorem variableCount_eq : p.variableCount = n := h.exists_factor.1.rows_eq

theorem transpose_quadratic : p.quadratic.transpose = p.quadratic := by
  obtain ⟨hspace, F, hF⟩ := h.exists_factor
  obtain ⟨htranspose, hmatrix⟩ := hspace.transpose
  refine htranspose.ext hspace ?_
  rw [hmatrix, hF, transpose_add, transpose_one, transpose_mul, transpose_transpose]

theorem dot_le_dot_mulVec {x : Vec Extended} (hx : Vec.InSpace n x) :
    ∃ y a b, p.quadratic.mulVec x = .ok y ∧ Vec.dot x y = .ok (real a)
      ∧ Vec.dot x x = .ok (real b) ∧ b ≤ a := by
  obtain ⟨hspace, F, hF⟩ := h.exists_factor
  obtain ⟨y, hy, hyspace, htuple⟩ := hspace.mulVec_eq_ok hx
  refine ⟨y, _, _, hy, hx.dot_eq hyspace, hx.dot_eq hx, ?_⟩
  rw [htuple, hF, dotProduct_one_add_mulVec]
  exact le_add_of_nonneg_right (Finset.sum_nonneg fun i _ ↦ mul_self_nonneg _)

/-- The first multiplier is that of the ball. -/
theorem hessian_inSpace {w : Vec Extended} (hw : Vec.IsReal w) : (p.hessian w).InSpace n n
    ∧ (p.hessian w).asMatrix n n = p.quadratic.asMatrix n n + (2 * w.coord 0) • 1 := by
  obtain ⟨hspace, -⟩ := h.exists_factor
  obtain ⟨hidentity, hone⟩ := DenseMatrix.inSpace_identity n
  obtain ⟨hscaled, hmatrix⟩ := hidentity.scale (2 * w.coord 0)
  rw [hessian, h.variableCount_eq, hw.headD_eq, two_mul_real, ← hone, ← hmatrix]
  exact hspace.zipWith hscaled (· + ·) real_add

theorem posDef_hessian (hv : 0 ≤ v) : ((p.hessian [real v]).asMatrix n n).PosDef := by
  obtain ⟨-, F, hF⟩ := h.exists_factor
  have hgram : (Fᵀ * F).PosSemidef := by
    rw [← conjTranspose_eq_transpose_of_trivial]
    exact posSemidef_conjTranspose_mul_self F
  have hdiagonal : ((1 + 2 * v) • (1 : Matrix (Fin n) (Fin n) ℝ)).PosDef :=
    PosDef.one.smul (by linarith)
  rw [(h.hessian_inSpace (Vec.isReal_singleton v)).2, hF, add_right_comm]
  rw [add_smul, one_smul] at hdiagonal
  exact hdiagonal.add_posSemidef hgram

/-! ## Feasibility of the origin -/

/-- At the origin the residual of the linear inequalities is the offset, which is negative. -/
theorem exists_residual : ∃ system r, AffineSystem.ofParts p.matrix p.offset = .ok system
    ∧ system.residual (Vec.zeros n) = .ok r ∧ r.length = m ∧ ∀ t ∈ r, t < 0 := by
  have hrows : p.matrix.rows = p.offset.length := h.matrix.rows_eq.trans h.length_offset.symm
  have hoffset : Vec.InSpace m p.offset := by
    refine ⟨fun t ht ↦ ?_, h.length_offset⟩
    obtain ⟨r, rfl, -⟩ := h.offset t ht
    exact isReal_real r
  obtain ⟨y, hy, hyspace, htuple⟩ := h.matrix.mulVec_eq_ok (Vec.inSpace_zeros n)
  obtain ⟨z, hz, hzspace, hsum⟩ := hyspace.add_eq_ok hoffset
  rw [htuple, Vec.tuple_zeros, mulVec_zero, zero_add] at hsum
  obtain rfl := hzspace.ext hoffset hsum
  refine ⟨_, _, dif_pos hrows, ?_, h.length_offset, fun t ht ↦ ?_⟩
  · rw [AffineSystem.residual, hy, ok_bind, hz]
  · obtain ⟨r, rfl, -, hr⟩ := h.offset t ht
    exact real_lt.mpr (by linarith)

theorem exists_ball : ∃ t, p.ball.value (Vec.zeros n) = .ok [t] ∧ t < 0 := by
  have hnorm : Vec.normSq (Vec.zeros n : Vec Extended) = real 0 := by
    rw [Vec.normSq_eq (Vec.IsReal.zeros n), Vec.sumSq_zeros]
  refine ⟨_, rfl, ?_⟩
  rw [hnorm, h.radius, real_mul, real_sub, zero_eq, real_lt]
  norm_num

theorem domain_eq : p.objective.domain.lower = List.replicate n (real (-5))
    ∧ p.objective.domain.upper = List.replicate n (real 5) := by
  have hfive : (5.0 : Extended) = real 5 := by
    rw [ofScientific_eq]
    norm_num
  have hminus : (-5.0 : Extended) = real (-5) := by rw [hfive, real_neg]
  rw [← hminus, ← hfive, ← h.variableCount_eq]
  exact ⟨rfl, rfl⟩

end Drawn

/-! ## The slack form -/

/-- The problem with the ball as its only nonlinear constraint and with linear inequalities. -/
def form {α : Type} [Scalar α] (p : RandomQuadratic α) (system : AffineSystem α) (x : Vec α)
    (maxIterations : ℕ) : SlackForm α where
  objective := p.objective
  inequality := p.ball
  equality := .none
  affineInequality := system
  affineEquality := .empty p.variableCount
  initial := x
  maxIterations := maxIterations

theorem restrictedIndices_replicate_real (n : ℕ) (r : ℝ) :
    Box.restrictedIndices (List.replicate n (real r)) = List.range n := by
  rw [Box.restrictedIndices, List.length_replicate]
  refine List.filter_eq_self.mpr fun i hi ↦ ?_
  rw [List.getD_eq_getElem?_getD, List.getElem?_replicate_of_lt (List.mem_range.mp hi)]
  rfl

namespace Drawn

variable (h : p.Drawn n m)

include h

theorem dim_domain : p.objective.domain.dim = n := by
  rw [Box.dim, h.domain_eq.1, List.length_replicate]

theorem steady_objective (equalities inequalities : ℕ) :
    p.objective.Steady p.objective.declared equalities inequalities := by
  obtain ⟨-, hrows, hcols⟩ := h.exists_factor.1
  have hdim := h.dim_domain
  constructor
  case value =>
    intro x hx
    rw [hdim] at hx
    obtain ⟨y, hy, hylength⟩ := (DenseMatrix.ensures_mulVec (m := p.quadratic)
      (hx.trans hcols.symm)).exists_ok
    obtain ⟨a, ha, -⟩ := (Vec.ensures_dot hx (hylength.trans hrows)).exists_ok
    obtain ⟨b, hb, -⟩ := (Vec.ensures_dot h.linear.length_eq hx).exists_ok
    have hvalue : p.objective.value x = (do
      let image ← p.quadratic.mulVec x
      return 0.5 * (← Vec.dot x image) + (← Vec.dot p.linear x)) := rfl
    refine ⟨0.5 * a + b, ?_⟩
    rw [hvalue, hy, ok_bind, ha, ok_bind, hb]
    rfl
  case gradient =>
    intro x hx
    rw [hdim] at hx
    obtain ⟨y, hy, hylength⟩ := (DenseMatrix.ensures_mulVec (m := p.quadratic)
      (hx.trans hcols.symm)).exists_ok
    obtain ⟨g, hg, hglength⟩ :=
      (Vec.ensures_add (hylength.trans hrows) h.linear.length_eq).exists_ok
    have hgradient : p.objective.gradient x =
        p.quadratic.mulVec x >>= fun image ↦ Vec.add image p.linear := rfl
    refine ⟨g, ?_, hglength.trans hdim.symm⟩
    rw [hgradient, hy, ok_bind, hg]
  case hessian =>
    intro x v w _ _ _
    exact ⟨_, rfl, .dense _, hrows.trans hdim.symm, hcols.trans hdim.symm⟩

theorem steady_form (system : AffineSystem Extended) (x : Vec Extended) (maxIterations : ℕ) :
    (p.form system x maxIterations).Steady
      ⟨p.objective.declared, ⟨0, 0, n⟩, ⟨1, 1, n⟩⟩ := by
  constructor
  case objective => exact h.steady_objective _ _
  case equality =>
    constructor
    case value => exact fun y _ ↦ ⟨_, rfl, rfl⟩
    case jacobian => exact fun y hy ↦ ⟨_, rfl, .dense _, rfl, hy.trans h.dim_domain⟩
  case inequality =>
    constructor
    case value => exact fun y _ ↦ ⟨_, rfl, rfl⟩
    case jacobian => exact fun y hy ↦ ⟨_, rfl, .dense _, rfl, hy.trans h.dim_domain⟩

theorem checked_form {system : AffineSystem Extended} (hsystem : system.matrix.cols = n)
    {x : Vec Extended} (hx : x.length = n) (maxIterations : ℕ) :
    (p.form system x maxIterations).checked = .ok (p.form system x maxIterations) := by
  have hcount : (p.form system x maxIterations).variableCount = n := h.dim_domain
  have hconsistent : (p.form system x maxIterations).Consistent
      ⟨p.objective.declared, ⟨0, 0, n⟩, ⟨1, 1, n⟩⟩ := by
    constructor
    case initial => exact hx.trans hcount.symm
    case objective => rfl
    case equality => exact congrArg (ConstraintSizes.mk 0 0) hcount.symm
    case inequality => exact congrArg (ConstraintSizes.mk 1 1) hcount.symm
    case affineEquality => exact h.variableCount_eq.trans hcount.symm
    case affineInequality => exact hsystem.trans hcount.symm
  obtain ⟨-, q, hq, rfl⟩ | ⟨hnot, -⟩ :=
    SlackForm.validates_checked (h.steady_form system x maxIterations)
  · exact hq
  · exact absurd hconsistent hnot

/-- There is a slack for the ball, for each linear inequality and for both bounds of each
variable. -/
theorem constraintCount_form {system : AffineSystem Extended} (hsystem : system.count = m)
    (x : Vec Extended) (maxIterations : ℕ) :
    (p.form system x maxIterations).constraintCount = p.multiplierCount := by
  have hbounds : (p.form system x maxIterations).upperBounded.length = n
      ∧ (p.form system x maxIterations).lowerBounded.length = n := by
    rw [SlackForm.upperBounded, SlackForm.lowerBounded, Box.upperBounded, Box.lowerBounded, form,
      h.domain_eq.1, h.domain_eq.2, restrictedIndices_replicate_real,
      restrictedIndices_replicate_real, List.length_range]
    exact ⟨rfl, rfl⟩
  have hcounts : (p.form system x maxIterations).equalityCount = 0
      ∧ (p.form system x maxIterations).inequality.count = 1
      ∧ (p.form system x maxIterations).affineInequality.count = m := ⟨rfl, rfl, hsystem⟩
  rw [SlackForm.constraintCount, SlackForm.slackCount, hbounds.1, hbounds.2, hcounts.1,
    hcounts.2.1, hcounts.2.2, multiplierCount, h.matrix.rows_eq, h.variableCount_eq]
  omega

end Drawn

/-! ## What is documented -/

/-- What the documentation says of a program with `n` variables and `m` linear inequalities. -/
structure Documented (p : RandomQuadratic Extended) (n m : ℕ) : Prop where
  /-- The number of variables. -/
  variableCount_eq : p.variableCount = n
  /-- The quadratic part is symmetric. -/
  symmetric : p.quadratic.transpose = p.quadratic
  /-- Its quadratic form is at least the squared norm. -/
  convex : ∀ x, Vec.InSpace n x → ∃ y a b, p.quadratic.mulVec x = .ok y
    ∧ Vec.dot x y = .ok (real a) ∧ Vec.dot x x = .ok (real b) ∧ b ≤ a
  /-- There is an offset for each linear inequality, between minus two and minus one. -/
  offset : p.offset.length = m ∧ ∀ t ∈ p.offset, ∃ r : ℝ, t = real r ∧ -2 < r ∧ r ≤ -1
  /-- The origin satisfies the linear inequalities strictly. -/
  residual : ∃ system r, AffineSystem.ofParts p.matrix p.offset = .ok system
    ∧ system.residual (Vec.zeros n) = .ok r ∧ r.length = m ∧ ∀ t ∈ r, t < 0
  /-- The origin lies inside of the ball. -/
  ball : ∃ t, p.ball.value (Vec.zeros n) = .ok [t] ∧ t < 0
  /-- The origin lies inside of the cube. -/
  cube : p.objective.domain.lower = List.replicate n (real (-5))
    ∧ p.objective.domain.upper = List.replicate n (real 5)
    ∧ (∀ l ∈ p.objective.domain.lower, l < 0) ∧ ∀ u ∈ p.objective.domain.upper, 0 < u
  /-- The Hessian of the Lagrangian is positive definite. -/
  hessian : ∀ x w v, 0 ≤ v → ∃ H, p.objective.hessian x w [real v] = .ok (.dense H)
    ∧ H.InSpace n n ∧ H.asMatrix n n = p.quadratic.asMatrix n n + (2 * v) • 1
    ∧ (H.asMatrix n n).PosDef
  /-- The number of multipliers is the number of constraints of the subproblem. -/
  multipliers : ∀ (x : Vec Extended) (maxIterations : ℕ), x.length = n →
    ∃ system, AffineSystem.ofParts? n (some (p.matrix, p.offset)) = .ok system
      ∧ (p.form system x maxIterations).checked = .ok (p.form system x maxIterations)
      ∧ (p.form system x maxIterations).constraintCount = p.multiplierCount

theorem Drawn.documented (h : p.Drawn n m) : p.Documented n m where
  variableCount_eq := h.variableCount_eq
  symmetric := h.transpose_quadratic
  convex _ hx := h.dot_le_dot_mulVec hx
  offset := ⟨h.length_offset, h.offset⟩
  residual := h.exists_residual
  ball := h.exists_ball
  cube := by
    obtain ⟨hlower, hupper⟩ := h.domain_eq
    refine ⟨hlower, hupper, ?_, ?_⟩
    · intro l hl
      rw [hlower] at hl
      rw [List.eq_of_mem_replicate hl]
      exact real_lt.mpr (by norm_num)
    · intro u hu
      rw [hupper] at hu
      rw [List.eq_of_mem_replicate hu]
      exact real_lt.mpr (by norm_num)
  hessian _ _ v hv := by
    obtain ⟨hspace, hmatrix⟩ := h.hessian_inSpace (Vec.isReal_singleton v)
    exact ⟨_, rfl, hspace, hmatrix, h.posDef_hessian hv⟩
  multipliers x maxIterations hx := by
    have hrows : p.matrix.rows = p.offset.length := h.matrix.rows_eq.trans h.length_offset.symm
    have hcount : (⟨p.matrix, p.offset, hrows⟩ : AffineSystem Extended).count = m :=
      h.length_offset
    exact ⟨_, dif_pos hrows, h.checked_form h.matrix.cols_eq hx maxIterations,
      h.constraintCount_form hcount x maxIterations⟩

/-- **Random programs are what is documented.** From a source of draws in the half-open unit
interval a program is generated for every positive number of variables and every number of linear
inequalities. It is strictly convex, the origin satisfies all constraints strictly, and the number
of multipliers is the number of constraints of its subproblem. -/
theorem generate_documented (hdraw : DrawsUnit draw) (hn : 0 < n) (m : ℕ) (source : σ) :
    ∃ p source', generate draw n m source = .ok (p, source') ∧ p.Documented n m :=
  ⟨_, _, dif_pos hn, (drawn_generateFrom hdraw hn source).documented⟩

/-! ### An alternating source -/

/-- The draws are zero and three quarters in turn. -/
noncomputable def alternating (b : Bool) : Extended × Bool :=
  (if b then real 0.75 else real 0, !b)

theorem drawsUnit_alternating : DrawsUnit alternating := by
  intro b
  cases b with
  | false => exact ⟨0, rfl, le_rfl, one_pos⟩
  | true => exact ⟨0.75, rfl, by norm_num, by norm_num⟩

/-- A program in two variables with one linear inequality has six multipliers. -/
theorem alternating_documented : ∃ p source', generate alternating 2 1 false = .ok (p, source')
    ∧ p.Documented 2 1 ∧ p.multiplierCount = 6 := by
  obtain ⟨p, source', hp, hdocumented⟩ := generate_documented drawsUnit_alternating Nat.two_pos 1
    false
  refine ⟨p, source', hp, hdocumented, ?_⟩
  cases hp
  rfl

end RandomQuadratic

end LogBarrier
