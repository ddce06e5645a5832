import LogBarrier.Proofs.Barrier.Kkt
import LogBarrier.Proofs.Operator.Applied

/-!
# Linearization of the constraints

A scaled step moves the variables by itself and every slack relative to its value. The change of the
constraints, less the product of the scaled Jacobian with the step, is the linearization error. It
comes from the nonlinear constraints alone: linear rows and bounds are predicted exactly, and so are
the slacks in all rows that have one.
-/

namespace LogBarrier

open Extended

theorem AffineSystem.residualAt_sub {system : AffineSystem Extended} {x y : Vec Extended}
    {d : ℕ → ℝ} (h : ∀ j < system.matrix.cols, y.coord j = x.coord j + d j) (i : ℕ) :
    system.residualAt y i - system.residualAt x i =
      ∑ j ∈ Finset.range system.matrix.cols, system.matrix.coeff i j * d j := by
  rw [residualAt, residualAt, add_sub_add_right_eq_sub, ← Finset.sum_sub_distrib]
  exact Finset.sum_congr rfl fun j hj ↦ by
    rw [h j (Finset.mem_range.mp hj), mul_add, add_sub_cancel_left]

namespace SlackForm

variable {p q : SlackForm Extended} {x y s z d : Vec Extended} {i k : ℕ}

/-! ## Rows of the Jacobian -/

/-- The product of a row of the inequalities with a change of the variables. -/
noncomputable def inequalityImage (p : SlackForm Extended) (a : p.Answers x) (f : ℕ → ℝ) (k : ℕ) :
    ℝ :=
  ∑ j ∈ Finset.range p.variableCount, (p.inequalityOperator a).coeff k j * f j

/-- The product of a row of the scaled Jacobian with a step. -/
noncomputable def jacobianImage (p : SlackForm Extended) (a : p.Answers x) (s : Vec Extended)
    (f : ℕ → ℝ) (i : ℕ) : ℝ :=
  ∑ j ∈ Finset.range p.dim, (p.jacobianOperator a s).coeff i j * f j

section Rows

variable (hp : p.AffineParts) (a : p.Answers x) (f : ℕ → ℝ)

include hp

theorem inequalityImage_inequality (hi : i < p.inequality.count) : p.inequalityImage a f i =
    ∑ j ∈ Finset.range p.variableCount, a.inequality.jacobian.coeff i j * f j := by
  have hrow := Operator.sum_row_of_singleton (wellFormed_inequalityOperator hp a) 0 0 rfl rfl
    a.inequality.cols_eq f (by rwa [a.inequality.rows_eq])
  rwa [zero_add] at hrow

theorem inequalityImage_affine (hi : i < p.affineInequality.count) :
    p.inequalityImage a f (p.affineStart + i) = ∑ j ∈ Finset.range p.variableCount,
      p.affineInequality.matrix.coeff i j * f j :=
  Operator.sum_row_of_singleton (wellFormed_inequalityOperator hp a) 1 p.affineStart rfl
    (by simp [Operator.offset, affineStart, a.inequality.rows_eq]) hp.cols_inequality f
    (lt_of_lt_of_eq hi p.affineInequality.rows_eq.symm)

theorem inequalityImage_upper (h : p.upperBounded[k]? = some i) :
    p.inequalityImage a f (p.upperStart + k) = f i := by
  have hrow := Operator.sum_row_of_singleton (wellFormed_inequalityOperator hp a) 2 p.upperStart
    rfl (by simp [Operator.offset, upperStart, a.inequality.rows_eq,
      p.affineInequality.rows_eq, AffineSystem.count]) rfl f (List.getElem?_eq_some_iff.mp h).1
  refine hrow.trans ((Operator.sum_row_selection 1 f h
    (lt_of_mem_upperBounded (List.mem_of_getElem? h))).trans (one_mul _))

theorem inequalityImage_lower (h : p.lowerBounded[k]? = some i) :
    p.inequalityImage a f (p.lowerStart + k) = -f i := by
  have hrow := Operator.sum_row_of_singleton (wellFormed_inequalityOperator hp a) 3 p.lowerStart
    rfl (by simp [Operator.offset, lowerStart, upperStart,
      a.inequality.rows_eq, p.affineInequality.rows_eq, AffineSystem.count, add_assoc]) rfl f
    (List.getElem?_eq_some_iff.mp h).1
  refine hrow.trans ((Operator.sum_row_selection (-1) f h
    (lt_of_mem_lowerBounded (List.mem_of_getElem? h))).trans (neg_one_mul _))

variable (hs : s.length = p.slackCount)

include hs

theorem jacobianImage_equality (hi : i < p.equality.count) : p.jacobianImage a s f i =
    ∑ j ∈ Finset.range p.variableCount, a.equality.jacobian.coeff i j * f j := by
  have hrow := Operator.sum_row_of_singleton (wellFormed_jacobianOperator hp a hs) 0 0 rfl rfl
    a.equality.cols_eq f (by rwa [a.equality.rows_eq])
  rw [zero_add] at hrow
  exact hrow

theorem jacobianImage_affineEquality (hi : i < p.affineEquality.count) :
    p.jacobianImage a s f (p.equality.count + i) =
      ∑ j ∈ Finset.range p.variableCount, p.affineEquality.matrix.coeff i j * f j :=
  Operator.sum_row_of_singleton (wellFormed_jacobianOperator hp a hs) 1 p.equality.count rfl
    (by simp [Operator.offset]) hp.cols_equality f
    (lt_of_lt_of_eq hi p.affineEquality.rows_eq.symm)

theorem jacobianImage_slack (hk : k < p.slackCount) :
    p.jacobianImage a s f (p.equalityCount + k) =
      p.inequalityImage a f k + s.coord k * f (p.variableCount + k) := by
  have hrow := Operator.sum_row_of_cell (wellFormed_jacobianOperator hp a hs) f (r := 2) (i := k) hk
  have hstart : Operator.offset [p.equality.count, p.affineEquality.count, p.slackCount] 2
      = p.equalityCount := by
    simp [Operator.offset, equalityCount]
  have hleft : Operator.offset [p.variableCount, p.slackCount] 1 = p.variableCount := by
    simp [Operator.offset]
  have hdiagonal := Operator.sum_row_diagonal (fun j ↦ f (p.variableCount + j)) (hs ▸ hk)
  rw [hstart] at hrow
  refine hrow.trans ?_
  change ∑ j ∈ Finset.range p.variableCount, (p.inequalityOperator a).coeff k j * f (0 + j) +
    (∑ j ∈ Finset.range s.length, (Operator.diagonal s).coeff k j *
      f (Operator.offset [p.variableCount, p.slackCount] 1 + j) + 0) = _
  rw [hleft, hdiagonal, add_zero]
  simp only [zero_add]
  rfl

end Rows

/-! ## Scaled steps -/

/-- The diagonal of the scaling operator. -/
noncomputable def scaleAt (p : SlackForm Extended) (z : Vec Extended) (j : ℕ) : ℝ :=
  if j < p.variableCount then 1 else z.coord j

theorem scaling_apply (hz : Vec.IsReal z) (hzlength : z.length = p.dim) (f : ℕ → ℝ) :
    ∃ D, p.scaling z = .ok D ∧ D.apply (Vec.ofCoords p.dim f) =
      .ok (Vec.ofCoords p.dim fun j ↦ f j * p.scaleAt z j) := by
  set e : Vec Extended := List.replicate p.variableCount 1 ++ z.drop p.variableCount with he
  have helength : e.length = p.dim := by
    rw [he, List.length_append, List.length_replicate, length_slacks hzlength, dim]
  have hereal : Vec.IsReal e :=
    Vec.isReal_append.mpr ⟨Vec.IsReal.replicate isReal_one _, hz.drop _⟩
  have hcoord : ∀ j < p.dim, e.coord j = p.scaleAt z j := by
    intro j hj
    rw [he, scaleAt]
    split_ifs with hlt
    · rw [Vec.coord_append_left (by rwa [List.length_replicate]),
        Vec.coord_of_getElem? (List.getElem?_replicate_of_lt hlt)]
      rfl
    · rw [Vec.coord_append_right (by rw [List.length_replicate]; omega), List.length_replicate,
        Vec.coord_drop, Nat.add_sub_cancel' (not_lt.mp hlt)]
  refine ⟨.diagonal e, ?_, ?_⟩
  · rw [scaling, split, if_pos hzlength]
    rfl
  · rw [Operator.apply, Operator.applyOver,
      if_pos (by rw [Vec.length_zeros, Vec.length_ofCoords]; exact helength),
      Vec.eq_ofCoords hereal helength hcoord, Vec.mul_ofCoords]

theorem scaleAt_variable {j : ℕ} (hj : j < p.variableCount) : p.scaleAt z j = 1 := if_pos hj

theorem scaleAt_slack (k : ℕ) :
    p.scaleAt z (p.variableCount + k) = z.coord (p.variableCount + k) :=
  if_neg (Nat.not_lt.mpr (Nat.le_add_right _ _))

/-- A scaled step is taken without a fault. It moves the variables by itself and each slack relative
to its value. -/
theorem scaled_step (hz : Vec.IsReal z) (hzlength : z.length = p.dim) (hd : Vec.IsReal d)
    (hdlength : d.length = p.dim) :
    ∃ D δ w, p.scaling z = .ok D ∧ D.apply d = .ok δ ∧ Vec.add z δ = .ok w ∧ Vec.IsReal w
      ∧ w.length = p.dim ∧ w.take p.variableCount =
          List.zipWith (· + ·) (z.take p.variableCount) (d.take p.variableCount)
      ∧ ∀ k < p.slackCount, w.coord (p.variableCount + k) = z.coord (p.variableCount + k)
          + z.coord (p.variableCount + k) * d.coord (p.variableCount + k) := by
  have hle : p.variableCount ≤ p.dim := Nat.le_add_right _ _
  obtain ⟨D, hD, hδ⟩ := scaling_apply (p := p) hz hzlength d.coord
  have hadd := Vec.add_ofCoords p.dim z.coord fun j ↦ d.coord j * p.scaleAt z j
  rw [Vec.ofCoords_coord_of_length hd hdlength] at hδ
  rw [Vec.ofCoords_coord_of_length hz hzlength] at hadd
  refine ⟨D, _, _, hD, hδ, hadd, Vec.isReal_ofCoords _ _, Vec.length_ofCoords _ _, ?_,
    fun k hk ↦ ?_⟩
  · rw [Vec.take_eq_ofCoords (Vec.isReal_ofCoords _ _) (by rwa [Vec.length_ofCoords]),
      Vec.take_eq_ofCoords hz (hzlength ▸ hle), Vec.take_eq_ofCoords hd (hdlength ▸ hle),
      Vec.zipWith_ofCoords (· + ·) fun _ _ ↦ rfl]
    refine Vec.ofCoords_congr fun j hj ↦ ?_
    rw [Vec.coord_ofCoords (hj.trans_le hle), scaleAt_variable hj, mul_one]
  · rw [Vec.coord_ofCoords (by rw [dim]; omega), scaleAt_slack, mul_comm (d.coord _)]

/-! ## The linearization error -/

/-- The linearization error `e` of the constraints, block by block, where `u` and `t` are the
products of the Jacobians of the nonlinear constraints with the change of the variables. -/
structure LinearizationError (p : SlackForm Extended) (a : p.Answers x) (b : p.Answers y)
    (u t e : Vec Extended) : Prop where
  isReal : Vec.IsReal e
  length_eq : e.length = p.constraintCount
  equality : ∀ i < p.equality.count,
    e.coord i = b.equality.value.coord i - a.equality.value.coord i - u.coord i
  affineEquality : ∀ i < p.affineEquality.count, e.coord (p.equality.count + i) = 0
  inequality : ∀ i < p.inequality.count, e.coord (p.equalityCount + i) =
    b.inequality.value.coord i - a.inequality.value.coord i - t.coord i
  affineInequality : ∀ i < p.affineInequality.count,
    e.coord (p.equalityCount + (p.affineStart + i)) = 0
  upper : ∀ k < p.upperBounded.length, e.coord (p.equalityCount + (p.upperStart + k)) = 0
  lower : ∀ k < p.lowerBounded.length, e.coord (p.equalityCount + (p.lowerStart + k)) = 0

/-- A row with a slack: the change of the slack is what the Jacobian predicts of it. -/
theorem sub_slack_row {r r' σ image change : ℝ} :
    r' + (σ + σ * change) - (r + σ) - (image + σ * change) = r' - r - image := by ring

theorem linearizationError_of_blocks (hp : p.AffineParts) {a : p.Answers x} {b : p.Answers y}
    {σ : ℕ → ℝ} {c c' e : Vec Extended} {f : ℕ → ℝ} (hs : s.length = p.slackCount)
    (hc : p.ConstraintBlocks a s.coord c) (hc' : p.ConstraintBlocks b σ c')
    (hy : ∀ j < p.variableCount, y.coord j = x.coord j + f j)
    (hσ : ∀ k < p.slackCount, σ k = s.coord k + s.coord k * f (p.variableCount + k))
    (hreal : Vec.IsReal e) (hlength : e.length = p.constraintCount)
    (he : ∀ i < p.constraintCount, e.coord i = c'.coord i - c.coord i - p.jacobianImage a s f i) :
    p.LinearizationError a b
      (Vec.ofCoords p.equality.count fun i ↦
        ∑ j ∈ Finset.range p.variableCount, a.equality.jacobian.coeff i j * f j)
      (Vec.ofCoords p.inequality.count fun i ↦
        ∑ j ∈ Finset.range p.variableCount, a.inequality.jacobian.coeff i j * f j) e := by
  have haffine {system : AffineSystem Extended} (hcols : system.matrix.cols = p.variableCount)
      (i : ℕ) : system.residualAt y i - system.residualAt x i
        - ∑ j ∈ Finset.range p.variableCount, system.matrix.coeff i j * f j = 0 := by
    rw [AffineSystem.residualAt_sub (hcols ▸ hy), hcols, sub_self]
  have hrow : ∀ k < p.slackCount, e.coord (p.equalityCount + k) =
      c'.coord (p.equalityCount + k) - c.coord (p.equalityCount + k)
        - (p.inequalityImage a f k + s.coord k * f (p.variableCount + k)) := fun k hk ↦ by
    rw [he _ (by rw [constraintCount]; omega), jacobianImage_slack hp a f hs hk]
  rw [forall_slack_iff] at hrow hσ
  obtain ⟨hinequality, haffineInequality, hupper, hlower⟩ := hrow
  obtain ⟨hσinequality, hσaffine, hσupper, hσlower⟩ := hσ
  constructor
  case isReal => exact hreal
  case length_eq => exact hlength
  case equality =>
    intro i hi
    rw [he i (by rw [constraintCount, equalityCount]; omega), hc.equality i hi, hc'.equality i hi,
      jacobianImage_equality hp a f hs hi, Vec.coord_ofCoords hi]
  case affineEquality =>
    intro i hi
    rw [he _ (by rw [constraintCount, equalityCount]; omega), hc.affineEquality i hi,
      hc'.affineEquality i hi, jacobianImage_affineEquality hp a f hs hi, haffine hp.cols_equality]
  case inequality =>
    intro i hi
    rw [hinequality i hi, hc.inequality i hi, hc'.inequality i hi, hσinequality i hi,
      inequalityImage_inequality hp a f hi, Vec.coord_ofCoords hi, sub_slack_row]
  case affineInequality =>
    intro i hi
    rw [haffineInequality i hi, hc.affineInequality i hi, hc'.affineInequality i hi, hσaffine i hi,
      inequalityImage_affine hp a f hi, sub_slack_row, haffine hp.cols_inequality]
  case upper =>
    intro k hk
    obtain ⟨i, hi⟩ : ∃ i, p.upperBounded[k]? = some i := ⟨_, List.getElem?_eq_getElem hk⟩
    rw [hupper k hk, hc.upper k i hi, hc'.upper k i hi, hσupper k hk,
      inequalityImage_upper hp a f hi, sub_slack_row, aboveUpper, aboveUpper,
      hy i (lt_of_mem_upperBounded (List.mem_of_getElem? hi))]
    ring
  case lower =>
    intro k hk
    obtain ⟨i, hi⟩ : ∃ i, p.lowerBounded[k]? = some i := ⟨_, List.getElem?_eq_getElem hk⟩
    rw [hlower k hk, hc.lower k i hi, hc'.lower k i hi, hσlower k hk,
      inequalityImage_lower hp a f hi, sub_slack_row, belowLower, belowLower,
      hy i (lt_of_mem_lowerBounded (List.mem_of_getElem? hi))]
    ring

/-- **Linear constraints and bounds carry no linearization error.** From any combined iterate, a
scaled step, the constraints at both ends and the product of the scaled Jacobian with the step are
evaluated without a fault. The change of the constraints differs from the prediction of the Jacobian
by the linearization errors of the nonlinear constraints in their own rows, and in no other row. -/
theorem constraints_sub_jacobian (hchecked : q.checked = .ok p)
    (hinequality : p.affineInequality.IsReal) (hequality : p.affineEquality.IsReal)
    (hz : Vec.IsReal z) (hzlength : z.length = p.dim) (hd : Vec.IsReal d)
    (hdlength : d.length = p.dim) (a : p.Answers (z.take p.variableCount))
    (b : p.Answers (List.zipWith (· + ·) (z.take p.variableCount) (d.take p.variableCount))) :
    ∃ D δ w c c' J r m e u t, p.scaling z = .ok D ∧ D.apply d = .ok δ ∧ Vec.add z δ = .ok w
      ∧ p.constraints w = .ok c' ∧ p.constraints z = .ok c ∧ p.jacobian z = .ok J
      ∧ J.apply d = .ok m ∧ Vec.sub c' c = .ok r ∧ Vec.sub r m = .ok e
      ∧ a.equality.jacobian.apply (d.take p.variableCount) = .ok u
      ∧ a.inequality.jacobian.apply (d.take p.variableCount) = .ok t
      ∧ p.LinearizationError a b u t e := by
  have hp := affineParts_of_checkParts (checkParts_of_checked hchecked) hinequality hequality
  have hs := length_slacks hzlength
  have hle : p.variableCount ≤ p.dim := Nat.le_add_right _ _
  have hx := Vec.take_eq_ofCoords hz (hzlength ▸ hle)
  have hdx := Vec.take_eq_ofCoords hd (hdlength ▸ hle)
  obtain ⟨D, δ, w, hD, hδ, hw, hwreal, hwlength, hvariables, hslacks⟩ :=
    scaled_step hz hzlength hd hdlength
  have hmoved (j : ℕ) (hj : j < p.variableCount) : Vec.coord (w.take p.variableCount) j =
      Vec.coord (z.take p.variableCount) j + d.coord j := by
    rw [hvariables, hx, hdx, Vec.zipWith_ofCoords (· + ·) fun _ _ ↦ rfl, Vec.coord_ofCoords hj,
      Vec.coord_ofCoords hj]
  revert b
  rw [← hvariables]
  intro b
  -- Both ends are written by blocks, and the Jacobian as the matrix of its blocks.
  have hblocks := constraintBlocks a (hz.take _) (hz.drop _) hs
  have hblocks' := constraintBlocks b (hwreal.take _) (hwreal.drop _) (length_slacks hwlength)
  have hJ := Operator.apply_ofCoords (wellFormed_jacobianOperator hp a hs)
    (isReal_jacobianOperator hp a (hz.drop _)) d.coord
  have hu := Operator.apply_ofCoords a.equality.wellFormed a.equality.isReal_jacobian d.coord
  have ht := Operator.apply_ofCoords a.inequality.wellFormed a.inequality.isReal_jacobian d.coord
  have hr := Vec.sub_ofCoords p.constraintCount
    (p.constraintVector b (w.drop p.variableCount)).coord
    (p.constraintVector a (z.drop p.variableCount)).coord
  rw [rows_jacobianOperator, cols_jacobianOperator,
    Vec.ofCoords_coord_of_length hd hdlength] at hJ
  rw [a.equality.rows_eq, a.equality.cols_eq, ← hdx] at hu
  rw [a.inequality.rows_eq, a.inequality.cols_eq, ← hdx] at ht
  rw [Vec.ofCoords_coord_of_length hblocks'.isReal hblocks'.length_eq,
    Vec.ofCoords_coord_of_length hblocks.isReal hblocks.length_eq] at hr
  refine ⟨D, δ, w, _, _, _, _, _, _, _, _, hD, hδ, hw, constraints_eq hp hwreal hwlength b,
    constraints_eq hp hz hzlength a, jacobian_eq hp hzlength a, hJ, hr, Vec.sub_ofCoords _ _ _, hu,
    ht, ?_⟩
  refine linearizationError_of_blocks hp hs hblocks hblocks' hmoved (fun k hk ↦ ?_)
    (Vec.isReal_ofCoords _ _) (Vec.length_ofCoords _ _) fun i hi ↦ ?_
  · rw [Vec.coord_drop, Vec.coord_drop, hslacks k hk]
  · rw [Vec.coord_ofCoords hi, jacobianImage]

/-! ## A parabola on a circle -/

noncomputable def unitSquare : Constraints Extended where
  count := 1
  value x := return [(← Vec.entry x 0) * (← Vec.entry x 0) - 1]
  jacobian x := return .dense (DenseMatrix.ofRows 1 [[(← Vec.entry x 0) + (← Vec.entry x 0)]])

/-- The parabola over the interval from zero to one, with a nonlinear equality. -/
noncomputable def squaredParabola : SlackForm Extended := { parabola with equality := unitSquare }

noncomputable def unitSquareAnswers (a : ℝ) : unitSquare.Answers 1 [real a] where
  value := [real (a * a - 1)]
  jacobian := .dense (DenseMatrix.ofRows 1 [[real (a + a)]])
  value_eq := rfl
  jacobian_eq := rfl
  isReal_value := Vec.isReal_cons.mpr ⟨isReal_real _, Vec.isReal_nil⟩
  length_value := rfl
  isReal_jacobian := .dense (DenseMatrix.isReal_ofRows (by simp [Vec.isReal_cons]))
  wellFormed := .dense _
  rows_eq := rfl
  cols_eq := rfl

noncomputable def squaredParabolaAnswers (a : ℝ) : squaredParabola.Answers [real a] :=
  { parabolaAnswers (rfl : (Box.cube 1 Nat.one_pos 0 1 : Box Extended).dim = 1) a with
    equality := unitSquareAnswers a }

/-- A step of one half, which also turns a slack negative, makes an error of one quarter in the row
of the equality. The rows of the two bounds have none. -/
theorem squaredParabola_sub_jacobian : ∃ D δ w c c' J r m,
    squaredParabola.scaling [real 0.5, real 0.5, real 0.5] = .ok D
    ∧ D.apply [real 0.5, real (-3), real 2] = .ok δ
    ∧ Vec.add [real 0.5, real 0.5, real 0.5] δ = .ok w
    ∧ squaredParabola.constraints w = .ok c'
    ∧ squaredParabola.constraints [real 0.5, real 0.5, real 0.5] = .ok c
    ∧ squaredParabola.jacobian [real 0.5, real 0.5, real 0.5] = .ok J
    ∧ J.apply [real 0.5, real (-3), real 2] = .ok m
    ∧ Vec.sub c' c = .ok r ∧ Vec.sub r m = .ok [real 0.25, real 0, real 0] := by
  have hreal : (AffineSystem.empty 1 : AffineSystem Extended).IsReal :=
    ⟨DenseMatrix.isReal_zeros _ _, Vec.isReal_nil⟩
  obtain ⟨D, δ, w, c, c', J, r, m, e, u, t, hD, hδ, hw, hc', hc, hJ, hm, hr, he, hu, -, herror⟩ :=
    constraints_sub_jacobian (q := squaredParabola) (p := squaredParabola)
      (z := [real 0.5, real 0.5, real 0.5]) (d := [real 0.5, real (-3), real 2]) rfl hreal hreal
      (by simp [Vec.isReal_cons]) rfl (by simp [Vec.isReal_cons]) rfl (squaredParabolaAnswers 0.5)
      (squaredParabolaAnswers (0.5 + 0.5))
  refine ⟨D, δ, w, c, c', J, r, m, hD, hδ, hw, hc', hc, hJ, hm, hr, he.trans (congrArg _ ?_)⟩
  have hslope : (Except.ok [real ((0.5 + 0.5) * 0.5)] : Except Fault (Vec Extended)) = .ok u := hu
  cases hslope
  have hequality : e.coord 0 = 0.25 := by
    refine (herror.equality 0 Nat.one_pos).trans ?_
    change ((0.5 + 0.5) * (0.5 + 0.5) - 1 - (0.5 * 0.5 - 1) - (0.5 + 0.5) * 0.5 : ℝ) = 0.25
    norm_num
  have hupper : e.coord 1 = 0 := herror.upper 0 Nat.one_pos
  have hlower : e.coord 2 = 0 := herror.lower 0 Nat.one_pos
  rw [← Vec.ofCoords_coord_of_length herror.isReal herror.length_eq]
  change [real (e.coord 0), real (e.coord 1), real (e.coord 2)] = _
  rw [hequality, hupper, hlower]

end SlackForm

end LogBarrier
