import LogBarrier.Gallery.Quadratic
import LogBarrier.Proofs.Barrier.Jacobian

/-!
# Solutions of the slack form

A combined iterate with positive slacks solves the barrier subproblem to first order exactly if its
variables and its multipliers satisfy the conditions of Karush, Kuhn and Tucker for the original
problem, where each slack is the negative residual of its row and the products of slacks and
multipliers are equal to the barrier parameter instead of zero.

The conditions do not mention the slack form: they are equations between what the functions of the
user answer, the linear constraints and the bounds.
-/

namespace LogBarrier

open Extended

theorem Vec.forall_eq_zero_iff {x : Vec Extended} (hx : Vec.IsReal x) :
    (∀ a ∈ x, a = 0) ↔ ∀ i < x.length, x.coord i = 0 := by
  rw [Vec.forall_coord_iff (P := fun t ↦ t = 0)]
  refine forall₂_congr fun a ha ↦ ?_
  obtain ⟨t, rfl⟩ := hx a ha
  exact real_inj

theorem forall_lt_length_iff {β : Type} {l : List β} {P : ℕ → Prop} :
    (∀ k < l.length, P k) ↔ ∀ k b, l[k]? = some b → P k := by
  constructor
  · intro h k b hb
    exact h k (List.getElem?_eq_some_iff.mp hb).1
  · intro h k hk
    exact h k l[k] (List.getElem?_eq_getElem hk)

namespace SlackForm

variable {p q : SlackForm Extended} {x s z v : Vec Extended} {level : Level Extended} {μ : ℝ}

/-- The conditions of Karush, Kuhn and Tucker, with slacks `s` and multipliers `v`, and with `μ` in
place of zero for the products of slacks and multipliers. -/
structure Kkt (p : SlackForm Extended) (μ : ℝ) (a : p.Answers x) (s v : ℕ → ℝ) : Prop where
  equality : ∀ i < p.equality.count, a.equality.value.coord i = 0
  affineEquality : ∀ i < p.affineEquality.count, p.affineEquality.residualAt x i = 0
  inequality : ∀ i < p.inequality.count, s i = -a.inequality.value.coord i
  affineInequality : ∀ i < p.affineInequality.count,
    s (p.affineStart + i) = -p.affineInequality.residualAt x i
  upper : ∀ k i, p.upperBounded[k]? = some i → s (p.upperStart + k) = -p.aboveUpper x i
  lower : ∀ k i, p.lowerBounded[k]? = some i → s (p.lowerStart + k) = -p.belowLower x i
  stationary : ∀ j < p.variableCount, p.lagrangianSlope a v j = 0
  complementary : ∀ i < p.slackCount, s i * v (p.equalityCount + i) = μ

/-- All inequalities and finite bounds hold strictly. -/
structure StrictlyFeasible (p : SlackForm Extended) (a : p.Answers x) : Prop where
  inequality : ∀ i < p.inequality.count, a.inequality.value.coord i < 0
  affineInequality : ∀ i < p.affineInequality.count, p.affineInequality.residualAt x i < 0
  upper : ∀ i ∈ p.upperBounded, p.aboveUpper x i < 0
  lower : ∀ i ∈ p.lowerBounded, p.belowLower x i < 0

/-! ## Sizes of a checked problem -/

theorem cols_of_checkParts {α : Type} [Scalar α] {p : SlackForm α} (h : p.checkParts = .ok ()) :
    p.affineInequality.matrix.cols = p.variableCount
      ∧ p.affineEquality.matrix.cols = p.variableCount := by
  obtain ⟨_, -, h⟩ := bind_eq_ok_iff.mp h
  obtain ⟨_, -, h⟩ := bind_eq_ok_iff.mp h
  obtain ⟨_, -, h⟩ := bind_eq_ok_iff.mp h
  obtain ⟨_, -, h⟩ := bind_eq_ok_iff.mp h
  obtain ⟨_, -, h⟩ := bind_eq_ok_iff.mp h
  obtain ⟨_, hinequality, h⟩ := bind_eq_ok_iff.mp h
  obtain ⟨_, hequality, -⟩ := bind_eq_ok_iff.mp h
  exact ⟨(check_eq_ok hinequality).symm, (check_eq_ok hequality).symm⟩

theorem affineParts_of_checkParts (h : p.checkParts = .ok ())
    (hinequality : p.affineInequality.IsReal) (hequality : p.affineEquality.IsReal) :
    p.AffineParts := by
  obtain ⟨hcolsInequality, hcolsEquality⟩ := cols_of_checkParts h
  exact ⟨hinequality, hequality, hcolsInequality, hcolsEquality⟩

theorem checkParts_of_checked (h : q.checked = .ok p) : p.checkParts = .ok () := by
  obtain ⟨_, hparts, hp⟩ := bind_eq_ok_iff.mp h
  cases hp
  exact hparts

/-! ## The two halves of the conditions -/

theorem gradient_eq_of_answer (hlevel : level.parameter = real μ) (hlength : z.length = p.dim)
    {g : Vec Extended} (hg : p.objective.gradient (z.take p.variableCount) = .ok g)
    (hreal : Vec.IsReal g) (hglength : g.length = p.variableCount) :
    p.gradient level z = .ok (Vec.ofCoords p.dim
      fun j ↦ if j < p.variableCount then g.coord j else -μ) := by
  have hallreal : Vec.IsReal (g ++ List.replicate p.slackCount (-level.parameter)) :=
    Vec.isReal_append.mpr ⟨hreal, Vec.IsReal.replicate (by rw [hlevel]; exact isReal_real (-μ)) _⟩
  have hall : (g ++ List.replicate p.slackCount (-level.parameter)).length = p.dim := by
    rw [List.length_append, List.length_replicate, hglength, dim]
  rw [gradient, split, if_pos hlength, ok_bind]
  dsimp only
  rw [hg, ok_bind, Vec.takeExactly, if_pos hall.ge, ← hall, List.take_length]
  refine congrArg _ (Vec.eq_ofCoords hallreal rfl fun j hj ↦ ?_)
  split_ifs with hlt
  · rw [Vec.coord_append_left (by rwa [hglength])]
  · rw [Vec.coord_append_right (by omega), Vec.coord_of_getElem?
      (List.getElem?_replicate_of_lt (by rw [hall, dim] at hj; omega)), hlevel]
    rfl

theorem gradient_eq (hlevel : level.parameter = real μ) (hlength : z.length = p.dim)
    (a : p.Answers (z.take p.variableCount)) : p.gradient level z = .ok (Vec.ofCoords p.dim
      fun j ↦ if j < p.variableCount then a.gradient.coord j else -μ) :=
  gradient_eq_of_answer hlevel hlength a.gradient_eq a.isReal_gradient a.length_gradient

/-- The constraints are zero exactly if the primal half of the conditions holds. -/
theorem constraints_eq_zero_iff {a : p.Answers x} {σ : ℕ → ℝ} {c : Vec Extended}
    (h : p.ConstraintBlocks a σ c) : (∀ b ∈ c, b = 0) ↔
      (∀ i < p.equality.count, a.equality.value.coord i = 0)
      ∧ (∀ i < p.affineEquality.count, p.affineEquality.residualAt x i = 0)
      ∧ (∀ i < p.inequality.count, σ i = -a.inequality.value.coord i)
      ∧ (∀ i < p.affineInequality.count,
          σ (p.affineStart + i) = -p.affineInequality.residualAt x i)
      ∧ (∀ k i, p.upperBounded[k]? = some i → σ (p.upperStart + k) = -p.aboveUpper x i)
      ∧ ∀ k i, p.lowerBounded[k]? = some i → σ (p.lowerStart + k) = -p.belowLower x i := by
  rw [Vec.forall_eq_zero_iff h.isReal, h.length_eq, forall_constraint_iff, forall_slack_iff,
    forall_lt_length_iff (l := p.upperBounded), forall_lt_length_iff (l := p.lowerBounded)]
  -- A row with a slack is zero exactly if the slack is the negative residual.
  have hneg : ∀ r t : ℝ, r + t = 0 ↔ t = -r := fun r t ↦ by
    rw [add_comm]
    exact add_eq_zero_iff_eq_neg
  refine and_congr (forall₂_congr fun i hi ↦ by rw [h.equality i hi])
    (and_congr (forall₂_congr fun i hi ↦ by rw [h.affineEquality i hi])
      (and_congr (forall₂_congr fun i hi ↦ ?_) (and_congr (forall₂_congr fun i hi ↦ ?_)
        (and_congr (forall₃_congr fun k i hi ↦ ?_) (forall₃_congr fun k i hi ↦ ?_)))))
  · rw [h.inequality i hi, hneg]
  · rw [h.affineInequality i hi, hneg]
  · rw [h.upper k i hi, hneg]
  · rw [h.lower k i hi, hneg]

/-- The gradient of the Lagrangian of the subproblem, in the variables and in the slacks. -/
noncomputable def slope (p : SlackForm Extended) (μ : ℝ) (a : p.Answers x) (σ v : ℕ → ℝ) (j : ℕ) :
    ℝ :=
  if j < p.variableCount then p.lagrangianSlope a v j
  else -μ + σ (j - p.variableCount) * v (p.equalityCount + (j - p.variableCount))

/-- The sum of the gradient and the transposed Jacobian, evaluated without a fault. -/
theorem gradient_add_transposed (hp : p.AffineParts) (hlevel : level.parameter = real μ)
    (hz : p.Interior z) (a : p.Answers (z.take p.variableCount)) (f : ℕ → ℝ) :
    ∃ g J w, p.gradient level z = .ok g ∧ p.jacobian z = .ok J
      ∧ J.applyTransposed (Vec.ofCoords p.constraintCount f) = .ok w
      ∧ J.toMatrix.trMulVec (Vec.ofCoords p.constraintCount f) = .ok w
      ∧ Vec.add g w =
        .ok (Vec.ofCoords p.dim (p.slope μ a (Vec.coord (z.drop p.variableCount)) f)) := by
  have hs : Vec.IsReal (z.drop p.variableCount) := hz.isReal.drop _
  have hslength := length_slacks hz.length_eq
  have hreal := isReal_jacobianOperator hp a hs
  have hwellFormed := wellFormed_jacobianOperator hp a (length_slacks hz.length_eq)
  have happly := Operator.applyTransposed_ofCoords hwellFormed hreal f
  have hdense := Operator.trMulVec_toMatrix_ofCoords hreal f
  rw [rows_jacobianOperator, cols_jacobianOperator] at happly hdense
  refine ⟨_, _, _, gradient_eq hlevel hz.length_eq a, jacobian_eq hp hz.length_eq a, happly, hdense,
    ?_⟩
  -- In a variable the Jacobian completes the gradient, and in a slack it makes the product.
  rw [Vec.add_ofCoords]
  refine congrArg _ (Vec.ofCoords_congr fun j hj ↦ ?_)
  rw [slope]
  split_ifs with hlt
  · exact sum_jacobianOperator_variable hp a hslength f hlt
  · obtain ⟨k, rfl⟩ := Nat.exists_eq_add_of_le (not_lt.mp hlt)
    rw [sum_jacobianOperator_slack hp a hslength f (by rw [dim] at hj; omega),
      Nat.add_sub_cancel_left]

theorem forall_slope_iff {a : p.Answers x} {σ f : ℕ → ℝ} {P : ℝ → Prop} :
    (∀ j < p.dim, P (p.slope μ a σ f j)) ↔
      (∀ j < p.variableCount, P (p.lagrangianSlope a f j))
      ∧ ∀ i < p.slackCount, P (-μ + σ i * f (p.equalityCount + i)) := by
  constructor
  · intro h
    constructor
    · intro j hj
      have hslope := h j (by rw [dim]; omega)
      rwa [slope, if_pos hj] at hslope
    · intro i hi
      have hslope := h (p.variableCount + i) (by rw [dim]; omega)
      rwa [slope, if_neg (by omega), Nat.add_sub_cancel_left] at hslope
  · rintro ⟨hvariable, hslack⟩ j hj
    rw [slope]
    split_ifs with hlt
    · exact hvariable j hlt
    · exact hslack _ (by rw [dim] at hj; omega)

/-- The gradient of the Lagrangian is zero exactly if the dual half of the conditions holds. -/
theorem slope_eq_zero_iff {a : p.Answers x} {σ f : ℕ → ℝ} :
    (∀ j < p.dim, p.slope μ a σ f j = 0) ↔
      (∀ j < p.variableCount, p.lagrangianSlope a f j = 0)
      ∧ ∀ i < p.slackCount, σ i * f (p.equalityCount + i) = μ := by
  rw [forall_slope_iff (P := fun t ↦ t = 0)]
  refine and_congr_right' (forall₂_congr fun i _ ↦ ?_)
  rw [neg_add_eq_zero, eq_comm]

theorem Kkt.strictlyFeasible {a : p.Answers x} {σ f : ℕ → ℝ} (h : p.Kkt μ a σ f)
    (hσ : ∀ i < p.slackCount, 0 < σ i) : p.StrictlyFeasible a := by
  obtain ⟨hinequality, haffine, hupper, hlower⟩ := forall_slack_iff.mp hσ
  constructor
  · intro i hi
    have := h.inequality i hi
    linarith [hinequality i hi]
  · intro i hi
    have := h.affineInequality i hi
    linarith [haffine i hi]
  · intro i hi
    obtain ⟨k, hk⟩ := List.mem_iff_getElem?.mp hi
    have := h.upper k i hk
    linarith [hupper k (List.getElem?_eq_some_iff.mp hk).1]
  · intro i hi
    obtain ⟨k, hk⟩ := List.mem_iff_getElem?.mp hi
    have := h.lower k i hk
    linarith [hlower k (List.getElem?_eq_some_iff.mp hk).1]

theorem Interior.coord_pos (hz : p.Interior z) :
    ∀ i < p.slackCount, 0 < Vec.coord (z.drop p.variableCount) i := by
  rw [← length_slacks hz.length_eq, Vec.forall_coord_iff (P := fun t ↦ 0 < t)]
  intro b hb
  obtain ⟨t, rfl⟩ := hz.isReal.drop _ b hb
  exact hz.positive _ hb

/-- **The slack form is faithful.** At positive slacks the functions of the subproblem are evaluated
without a fault, and an iterate with its multipliers solves the subproblem to first order exactly if
it satisfies the conditions of Karush, Kuhn and Tucker for the original problem with the barrier
parameter in place of zero. Then its variables satisfy all inequalities and finite bounds
strictly. -/
theorem solves_iff_kkt (hchecked : q.checked = .ok p) (hinequality : p.affineInequality.IsReal)
    (hequality : p.affineEquality.IsReal) (hlevel : level.parameter = real μ) (hz : p.Interior z)
    (a : p.Answers (z.take p.variableCount)) (hv : Vec.IsReal v)
    (hlength : v.length = p.constraintCount) :
    ∃ c g J w t, p.constraints z = .ok c ∧ p.gradient level z = .ok g ∧ p.jacobian z = .ok J
      ∧ J.applyTransposed v = .ok w ∧ Vec.add g w = .ok t
      ∧ (((∀ b ∈ c, b = 0) ∧ ∀ b ∈ t, b = 0) ↔
        p.Kkt μ a (Vec.coord (z.drop p.variableCount)) v.coord)
      ∧ (p.Kkt μ a (Vec.coord (z.drop p.variableCount)) v.coord → p.StrictlyFeasible a) := by
  have hp := affineParts_of_checkParts (checkParts_of_checked hchecked) hinequality hequality
  obtain ⟨g, J, w, hg, hJ, hw, -, hsum⟩ := gradient_add_transposed hp hlevel hz a v.coord
  rw [← hlength, Vec.ofCoords_coord hv] at hw
  have hblocks := constraintBlocks a (hz.isReal.take _) (hz.isReal.drop _)
    (length_slacks hz.length_eq)
  refine ⟨_, g, J, w, _, constraints_eq hp hz.isReal hz.length_eq a, hg, hJ, hw, hsum, ?_,
    fun h ↦ h.strictlyFeasible hz.coord_pos⟩
  rw [constraints_eq_zero_iff hblocks, Vec.forall_eq_zero_iff (Vec.isReal_ofCoords _ _),
    Vec.length_ofCoords]
  have hcoord : (∀ j < p.dim, Vec.coord (Vec.ofCoords p.dim
      (p.slope μ a (Vec.coord (z.drop p.variableCount)) v.coord)) j = 0) ↔
        ∀ j < p.dim, p.slope μ a (Vec.coord (z.drop p.variableCount)) v.coord j = 0 :=
    forall₂_congr fun j hj ↦ by rw [Vec.coord_ofCoords hj]
  rw [hcoord, slope_eq_zero_iff]
  constructor
  · rintro ⟨⟨h₁, h₂, h₃, h₄, h₅, h₆⟩, h₇, h₈⟩
    exact ⟨h₁, h₂, h₃, h₄, h₅, h₆, h₇, h₈⟩
  · rintro ⟨h₁, h₂, h₃, h₄, h₅, h₆, h₇, h₈⟩
    exact ⟨⟨h₁, h₂, h₃, h₄, h₅, h₆⟩, h₇, h₈⟩

/-! ## The parabola -/

noncomputable def parabolaOver (domain : Box Extended) : SlackForm Extended where
  objective := { Gallery.parabola.objective with domain }
  inequality := .none
  equality := .none
  affineInequality := .empty 1
  affineEquality := .empty 1
  initial := [0.5]
  maxIterations := 1000

noncomputable def parabolaAnswers {domain : Box Extended} (h : domain.dim = 1) (a : ℝ) :
    (parabolaOver domain).Answers [real a] where
  gradient := [real ((2 : ℕ) * (a - (2 : ℕ)))]
  equality := Constraints.noAnswers h.symm
  inequality := Constraints.noAnswers h.symm
  gradient_eq := by
    refine congrArg (fun t ↦ Except.ok [t]) ?_
    norm_num
  isReal_gradient := Vec.isReal_cons.mpr ⟨isReal_real _, Vec.isReal_nil⟩
  length_gradient := h.symm

noncomputable def parabola : SlackForm Extended := parabolaOver (Box.cube 1 Nat.one_pos 0 1)

theorem interior_parabola : parabola.Interior [real 0.75, real 0.25, real 0.75] where
  isReal := by simp [Vec.isReal_cons]
  length_eq := rfl
  positive := by
    change ∀ a ∈ [real 0.25, real 0.75], 0 < a
    simp only [List.forall_mem_cons, zero_eq, real_lt]
    norm_num

theorem eq_zero_of_getElem?_singleton {k i : ℕ} (h : [0][k]? = some i) : k = 0 ∧ i = 0 := by
  obtain ⟨hk, hi⟩ := List.getElem?_eq_some_iff.mp h
  obtain rfl := Nat.lt_one_iff.mp hk
  exact ⟨rfl, hi.symm⟩

theorem kkt_parabola : parabola.Kkt 0.9375 (parabolaAnswers rfl 0.75)
    (Vec.coord [real 0.25, real 0.75]) (Vec.coord [real 3.75, real 1.25]) where
  equality i hi := nomatch hi
  affineEquality i hi := nomatch hi
  inequality i hi := nomatch hi
  affineInequality i hi := nomatch hi
  upper k i h := by
    obtain ⟨rfl, rfl⟩ := eq_zero_of_getElem?_singleton h
    change (0.25 : ℝ) = -(0.75 - 1)
    norm_num
  lower k i h := by
    obtain ⟨rfl, rfl⟩ := eq_zero_of_getElem?_singleton h
    change (0.75 : ℝ) = -(0 - 0.75)
    norm_num
  stationary j hj := by
    obtain rfl : j = 0 := Nat.lt_one_iff.mp hj
    change (2 * (0.75 - 2) : ℝ) + ∑ i ∈ Finset.range 0, _ + ∑ i ∈ Finset.range 0, _
      + (∑ i ∈ Finset.range 0, _ + ∑ i ∈ Finset.range 0, _
        + ∑ k ∈ Finset.range 1, (if [0][k]? = some 0 then _ else 0)
        - ∑ k ∈ Finset.range 1, (if [0][k]? = some 0 then _ else 0)) = 0
    simp only [Finset.sum_range_zero, Finset.sum_range_one, List.getElem?_cons_zero, if_pos]
    change (2 * (0.75 - 2) : ℝ) + 0 + 0 + (0 + 0 + 3.75 - 1.25) = 0
    norm_num
  complementary i hi := by
    obtain rfl | rfl : i = 0 ∨ i = 1 := by
      have : i < 2 := hi
      omega
    · change (0.25 : ℝ) * 3.75 = 0.9375
      norm_num
    · change (0.75 : ℝ) * 1.25 = 0.9375
      norm_num

/-- At three quarters the parabola is solved. There the multipliers of the two bounds differ by the
slope of the objective, and the products with the distances to the bounds are equal. -/
theorem parabola_is_solved : ∃ c g J w t,
    parabola.constraints [real 0.75, real 0.25, real 0.75] = .ok c
    ∧ parabola.gradient ⟨real 0.9375, 0⟩ [real 0.75, real 0.25, real 0.75] = .ok g
    ∧ parabola.jacobian [real 0.75, real 0.25, real 0.75] = .ok J
    ∧ J.applyTransposed [real 3.75, real 1.25] = .ok w ∧ Vec.add g w = .ok t
    ∧ (∀ b ∈ c, b = 0) ∧ ∀ b ∈ t, b = 0 := by
  have hreal : (AffineSystem.empty 1 : AffineSystem Extended).IsReal :=
    ⟨DenseMatrix.isReal_zeros _ _, Vec.isReal_nil⟩
  have hv : Vec.IsReal [real 3.75, real 1.25] := by simp [Vec.isReal_cons]
  have hlevel : (⟨real 0.9375, 0⟩ : Level Extended).parameter = real 0.9375 := rfl
  obtain ⟨c, g, J, w, t, hc, hg, hJ, hw, ht, hiff, -⟩ := solves_iff_kkt (q := parabola) rfl hreal
    hreal hlevel interior_parabola (parabolaAnswers rfl 0.75) hv rfl
  exact ⟨c, g, J, w, t, hc, hg, hJ, hw, ht, hiff.mpr kkt_parabola⟩

end SlackForm

end LogBarrier
