import LogBarrier.Proofs.Barrier.Positive
import LogBarrier.Proofs.Operator.Transposed

/-!
# Blocks of the slack form

The constraints, the multipliers and the rows of the Jacobian come in the same six blocks: nonlinear
equalities, linear equalities, nonlinear inequalities, linear inequalities, finite upper bounds and
finite lower bounds. The last four of them have a slack for each row.

Here the functions of the subproblem are given by their coordinates, block by block, in terms of
what the functions of the user answer.
-/

namespace LogBarrier

open Extended

/-! ## Answers of the user -/

/-- The values and the Jacobian of constraints at a point in `n` variables, in the shape that is
declared. -/
structure Constraints.Answers (constraints : Constraints Extended) (n : ℕ) (x : Vec Extended) where
  /-- The values. -/
  value : Vec Extended
  /-- The Jacobian. -/
  jacobian : Operator Extended
  value_eq : constraints.value x = .ok value
  jacobian_eq : constraints.jacobian x = .ok jacobian
  isReal_value : Vec.IsReal value
  length_value : value.length = constraints.count
  isReal_jacobian : jacobian.IsReal
  wellFormed : jacobian.WellFormed
  rows_eq : jacobian.rows = constraints.count
  cols_eq : jacobian.cols = n

noncomputable def Constraints.noAnswers {n : ℕ} {x : Vec Extended} (h : x.length = n) :
    Constraints.none.Answers n x where
  value := []
  jacobian := .dense (DenseMatrix.zeros 0 x.length)
  value_eq := rfl
  jacobian_eq := rfl
  isReal_value := Vec.isReal_nil
  length_value := rfl
  isReal_jacobian := .dense (DenseMatrix.isReal_zeros _ _)
  wellFormed := .dense _
  rows_eq := rfl
  cols_eq := h

/-- Entry `i` of the residual `a x + b`. -/
noncomputable def AffineSystem.residualAt (system : AffineSystem Extended) (x : Vec Extended)
    (i : ℕ) : ℝ :=
  ∑ j ∈ Finset.range system.matrix.cols, system.matrix.coeff i j * x.coord j
    + Vec.coord system.offset i

theorem AffineSystem.residual_eq {system : AffineSystem Extended} (h : system.IsReal)
    {x : Vec Extended} (hx : Vec.IsReal x) (hlength : x.length = system.matrix.cols) :
    system.residual x = .ok (Vec.ofCoords system.count (system.residualAt x)) := by
  have hmul := DenseMatrix.mulVec_ofCoords h.matrix x.coord
  have hadd := Vec.add_ofCoords system.count
    (fun i ↦ ∑ j ∈ Finset.range system.matrix.cols, system.matrix.coeff i j * x.coord j)
    (Vec.coord system.offset)
  rw [← hlength, Vec.ofCoords_coord hx] at hmul
  rw [count, Vec.ofCoords_coord h.offset, ← system.rows_eq, ← hlength] at hadd
  rw [residual, hmul]
  refine hadd.trans ?_
  rw [system.rows_eq, hlength]
  rfl

namespace SlackForm

/-- What the functions of the user answer at a point, in the shapes that are declared. -/
structure Answers (p : SlackForm Extended) (x : Vec Extended) where
  /-- The gradient of the objective. -/
  gradient : Vec Extended
  /-- The nonlinear equality constraints. -/
  equality : p.equality.Answers p.variableCount x
  /-- The nonlinear inequality constraints. -/
  inequality : p.inequality.Answers p.variableCount x
  gradient_eq : p.objective.gradient x = .ok gradient
  isReal_gradient : Vec.IsReal gradient
  length_gradient : gradient.length = p.variableCount

/-- The linear constraints consist of real numbers and have the declared number of columns. -/
structure AffineParts (p : SlackForm Extended) : Prop where
  inequality : p.affineInequality.IsReal
  equality : p.affineEquality.IsReal
  cols_inequality : p.affineInequality.matrix.cols = p.variableCount
  cols_equality : p.affineEquality.matrix.cols = p.variableCount

/-! ## Index ranges -/

section Ranges

variable {α : Type} [Scalar α]

def affineStart (p : SlackForm α) : ℕ := p.inequality.count

def upperStart (p : SlackForm α) : ℕ := p.inequality.count + p.affineInequality.count

def lowerStart (p : SlackForm α) : ℕ := p.upperStart + p.upperBounded.length

variable {p : SlackForm α}

/-- What holds of all slacks holds of the slacks of each block. -/
theorem forall_slack_iff {P : ℕ → Prop} : (∀ i < p.slackCount, P i) ↔
    (∀ i < p.inequality.count, P i) ∧ (∀ i < p.affineInequality.count, P (p.affineStart + i))
    ∧ (∀ i < p.upperBounded.length, P (p.upperStart + i))
    ∧ ∀ i < p.lowerBounded.length, P (p.lowerStart + i) := by
  simp only [slackCount, lowerStart, upperStart, affineStart]
  constructor
  · intro h
    exact ⟨fun i hi ↦ h i (by omega), fun i hi ↦ h _ (by omega), fun i hi ↦ h _ (by omega),
      fun i hi ↦ h _ (by omega)⟩
  · rintro ⟨hinequality, haffine, hupper, hlower⟩ i hi
    rcases lt_or_ge i p.inequality.count with h₁ | h₁
    · exact hinequality i h₁
    obtain ⟨i, rfl⟩ := Nat.exists_eq_add_of_le h₁
    rcases lt_or_ge i p.affineInequality.count with h₂ | h₂
    · exact haffine i h₂
    obtain ⟨i, rfl⟩ := Nat.exists_eq_add_of_le h₂
    rcases lt_or_ge i p.upperBounded.length with h₃ | h₃
    · rw [← Nat.add_assoc]
      exact hupper i h₃
    obtain ⟨i, rfl⟩ := Nat.exists_eq_add_of_le h₃
    rw [← Nat.add_assoc, ← Nat.add_assoc]
    exact hlower i (by omega)

theorem forall_constraint_iff {P : ℕ → Prop} : (∀ i < p.constraintCount, P i) ↔
    (∀ i < p.equality.count, P i) ∧ (∀ i < p.affineEquality.count, P (p.equality.count + i))
    ∧ ∀ i < p.slackCount, P (p.equalityCount + i) := by
  simp only [constraintCount, equalityCount]
  constructor
  · intro h
    exact ⟨fun i hi ↦ h i (by omega), fun i hi ↦ h _ (by omega), fun i hi ↦ h _ (by omega)⟩
  · rintro ⟨hequality, haffine, hslack⟩ i hi
    rcases lt_or_ge i p.equality.count with h₁ | h₁
    · exact hequality i h₁
    obtain ⟨i, rfl⟩ := Nat.exists_eq_add_of_le h₁
    rcases lt_or_ge i p.affineEquality.count with h₂ | h₂
    · exact haffine i h₂
    obtain ⟨i, rfl⟩ := Nat.exists_eq_add_of_le h₂
    rw [← Nat.add_assoc]
    exact hslack i (by omega)

end Ranges

/-! ## Constraints -/

variable {p : SlackForm Extended} {x s z : Vec Extended}

/-- How far variable `i` is above its upper bound. -/
noncomputable def aboveUpper (p : SlackForm Extended) (x : Vec Extended) (i : ℕ) : ℝ :=
  x.coord i - Vec.coord p.objective.domain.upper i

/-- How far variable `i` is below its lower bound. -/
noncomputable def belowLower (p : SlackForm Extended) (x : Vec Extended) (i : ℕ) : ℝ :=
  Vec.coord p.objective.domain.lower i - x.coord i

theorem toReal_sub_of_isReal {a b : Extended} (ha : a.IsReal) (hb : b.IsReal) :
    (a - b).toReal = a.toReal - b.toReal := by
  obtain ⟨y, rfl⟩ := ha
  obtain ⟨w, rfl⟩ := hb
  rw [real_sub]
  rfl

theorem coord_upperResidual (hx : Vec.IsReal x) {k i : ℕ} (h : p.upperBounded[k]? = some i) :
    Vec.coord (p.upperResidual x) k = p.aboveUpper x i := by
  have hmem : i ∈ p.upperBounded := List.mem_of_getElem? h
  rw [Vec.coord_of_getElem? (a := x.getD i 0 - p.objective.domain.upper.getD i 0)
    (by rw [upperResidual, List.getElem?_map, h]; rfl)]
  exact toReal_sub_of_isReal (hx.getD i) (isReal_of_mem_restrictedIndices hmem)

theorem coord_lowerResidual (hx : Vec.IsReal x) {k i : ℕ} (h : p.lowerBounded[k]? = some i) :
    Vec.coord (p.lowerResidual x) k = p.belowLower x i := by
  have hmem : i ∈ p.lowerBounded := List.mem_of_getElem? h
  rw [Vec.coord_of_getElem? (a := p.objective.domain.lower.getD i 0 - x.getD i 0)
    (by rw [lowerResidual, List.getElem?_map, h]; rfl)]
  exact toReal_sub_of_isReal (isReal_of_mem_restrictedIndices hmem) (hx.getD i)

/-- The constraints, block by block. -/
structure ConstraintBlocks (p : SlackForm Extended) (a : p.Answers x) (s : ℕ → ℝ)
    (c : Vec Extended) : Prop where
  isReal : Vec.IsReal c
  length_eq : c.length = p.constraintCount
  equality : ∀ i < p.equality.count, c.coord i = a.equality.value.coord i
  affineEquality : ∀ i < p.affineEquality.count,
    c.coord (p.equality.count + i) = p.affineEquality.residualAt x i
  inequality : ∀ i < p.inequality.count,
    c.coord (p.equalityCount + i) = a.inequality.value.coord i + s i
  affineInequality : ∀ i < p.affineInequality.count,
    c.coord (p.equalityCount + (p.affineStart + i)) =
      p.affineInequality.residualAt x i + s (p.affineStart + i)
  upper : ∀ k i, p.upperBounded[k]? = some i →
    c.coord (p.equalityCount + (p.upperStart + k)) = p.aboveUpper x i + s (p.upperStart + k)
  lower : ∀ k i, p.lowerBounded[k]? = some i →
    c.coord (p.equalityCount + (p.lowerStart + k)) = p.belowLower x i + s (p.lowerStart + k)

/-- The residuals of the rows with a slack, one block after the other. -/
noncomputable def slackResidual (p : SlackForm Extended) (a : p.Answers x) : Vec Extended :=
  a.inequality.value ++ Vec.ofCoords p.affineInequality.count (p.affineInequality.residualAt x)
    ++ p.upperResidual x ++ p.lowerResidual x

section SlackResidual

variable (a : p.Answers x)

theorem isReal_slackResidual (hx : Vec.IsReal x) : Vec.IsReal (p.slackResidual a) := by
  simp only [slackResidual, Vec.isReal_append]
  exact ⟨⟨⟨a.inequality.isReal_value, Vec.isReal_ofCoords _ _⟩, isReal_upperResidual hx⟩,
    isReal_lowerResidual hx⟩

theorem length_slackResidual : (p.slackResidual a).length = p.slackCount := by
  simp only [slackResidual, List.length_append, a.inequality.length_value, Vec.length_ofCoords,
    upperResidual, lowerResidual, List.length_map, slackCount]

theorem coord_slackResidual_inequality {i : ℕ} (hi : i < p.inequality.count) :
    Vec.coord (p.slackResidual a) i = a.inequality.value.coord i := by
  have hlength := a.inequality.length_value
  rw [slackResidual, Vec.coord_append_left, Vec.coord_append_left, Vec.coord_append_left]
  · omega
  · rw [List.length_append]
    omega
  · simp only [List.length_append]
    omega

theorem coord_slackResidual_affine {i : ℕ} (hi : i < p.affineInequality.count) :
    Vec.coord (p.slackResidual a) (p.affineStart + i) = p.affineInequality.residualAt x i := by
  have hlength := a.inequality.length_value
  rw [slackResidual, Vec.coord_append_left, Vec.coord_append_left, Vec.coord_append_right, hlength,
    affineStart, Nat.add_sub_cancel_left, Vec.coord_ofCoords hi]
  · rw [affineStart]
    omega
  · rw [List.length_append, Vec.length_ofCoords, affineStart]
    omega
  · simp only [List.length_append, Vec.length_ofCoords, affineStart]
    omega

theorem coord_slackResidual_upper (hx : Vec.IsReal x) {k i : ℕ} (h : p.upperBounded[k]? = some i) :
    Vec.coord (p.slackResidual a) (p.upperStart + k) = p.aboveUpper x i := by
  have hlength := a.inequality.length_value
  obtain ⟨hk, -⟩ := List.getElem?_eq_some_iff.mp h
  have hstart : (a.inequality.value ++ Vec.ofCoords p.affineInequality.count
      (p.affineInequality.residualAt x)).length = p.upperStart := by
    rw [List.length_append, Vec.length_ofCoords, hlength, upperStart]
  rw [slackResidual, Vec.coord_append_left, Vec.coord_append_right, hstart,
    Nat.add_sub_cancel_left, coord_upperResidual hx h]
  · rw [hstart]
    omega
  · rw [List.length_append, hstart, upperResidual, List.length_map]
    omega

theorem coord_slackResidual_lower (hx : Vec.IsReal x) {k i : ℕ} (h : p.lowerBounded[k]? = some i) :
    Vec.coord (p.slackResidual a) (p.lowerStart + k) = p.belowLower x i := by
  have hlength := a.inequality.length_value
  have hstart : (a.inequality.value ++ Vec.ofCoords p.affineInequality.count
      (p.affineInequality.residualAt x) ++ p.upperResidual x).length = p.lowerStart := by
    rw [List.length_append, List.length_append, Vec.length_ofCoords, hlength, upperResidual,
      List.length_map, lowerStart, upperStart]
  rw [slackResidual, Vec.coord_append_right, hstart, Nat.add_sub_cancel_left,
    coord_lowerResidual hx h]
  rw [hstart]
  omega

end SlackResidual

noncomputable def constraintVector (p : SlackForm Extended) (a : p.Answers x) (s : Vec Extended) :
    Vec Extended :=
  a.equality.value ++ Vec.ofCoords p.affineEquality.count (p.affineEquality.residualAt x)
    ++ List.zipWith (· + ·) (p.slackResidual a) s

section ConstraintVector

variable (a : p.Answers x)

theorem length_constraintVector (hlength : s.length = p.slackCount) :
    (p.constraintVector a s).length = p.constraintCount := by
  rw [constraintVector, List.length_append, List.length_append, a.equality.length_value,
    Vec.length_ofCoords, List.length_zipWith, length_slackResidual, hlength, Nat.min_self,
    constraintCount, equalityCount]

theorem coord_constraintVector_slack (hx : Vec.IsReal x) (hs : Vec.IsReal s)
    (hlength : s.length = p.slackCount) {i : ℕ} (hi : i < p.slackCount) :
    Vec.coord (p.constraintVector a s) (p.equalityCount + i) =
      Vec.coord (p.slackResidual a) i + s.coord i := by
  have hr := length_slackResidual a
  have hstart : (a.equality.value ++ Vec.ofCoords p.affineEquality.count
      (p.affineEquality.residualAt x)).length = p.equalityCount := by
    rw [List.length_append, a.equality.length_value, Vec.length_ofCoords, equalityCount]
  rw [constraintVector, Vec.coord_append_right, hstart, Nat.add_sub_cancel_left,
    Vec.coord_zipWith_add (isReal_slackResidual a hx) hs (hr.trans hlength.symm) (hr ▸ hi)]
  rw [hstart]
  omega

theorem constraintBlocks (hx : Vec.IsReal x) (hs : Vec.IsReal s)
    (hlength : s.length = p.slackCount) :
    p.ConstraintBlocks a s.coord (p.constraintVector a s) := by
  have hvalue := a.equality.length_value
  have hslack := fun i hi ↦ coord_constraintVector_slack a hx hs hlength (i := i) hi
  obtain ⟨hinequality, haffine, hupper, hlower⟩ := forall_slack_iff.mp hslack
  exact {
    isReal := by
      simp only [constraintVector, Vec.isReal_append]
      exact ⟨⟨a.equality.isReal_value, Vec.isReal_ofCoords _ _⟩,
        (isReal_slackResidual a hx).zipWith hs fun _ _ ha hb ↦ ha.add hb⟩
    length_eq := length_constraintVector a hlength
    equality := fun i hi ↦ by
      rw [constraintVector, Vec.coord_append_left, Vec.coord_append_left (hvalue ▸ hi)]
      rw [List.length_append]
      omega
    affineEquality := fun i hi ↦ by
      rw [constraintVector, Vec.coord_append_left, Vec.coord_append_right, hvalue,
        Nat.add_sub_cancel_left, Vec.coord_ofCoords hi]
      · omega
      · rw [List.length_append, Vec.length_ofCoords]
        omega
    inequality := fun i hi ↦ by
      rw [hinequality i hi, coord_slackResidual_inequality a hi]
    affineInequality := fun i hi ↦ by
      rw [haffine i hi, coord_slackResidual_affine a hi]
    upper := fun k i h ↦ by
      rw [hupper k (List.getElem?_eq_some_iff.mp h).1, coord_slackResidual_upper a hx h]
    lower := fun k i h ↦ by
      rw [hlower k (List.getElem?_eq_some_iff.mp h).1, coord_slackResidual_lower a hx h] }

end ConstraintVector

theorem constraints_eq (hp : p.AffineParts) (hz : Vec.IsReal z) (hlength : z.length = p.dim)
    (a : p.Answers (z.take p.variableCount)) :
    p.constraints z = .ok (p.constraintVector a (z.drop p.variableCount)) := by
  have hx : Vec.IsReal (z.take p.variableCount) := hz.take _
  have hxlength := length_variables hlength
  have haffineEquality := AffineSystem.residual_eq hp.equality hx
    (hxlength.trans hp.cols_equality.symm)
  have haffineInequality := AffineSystem.residual_eq hp.inequality hx
    (hxlength.trans hp.cols_inequality.symm)
  rw [constraints, split, if_pos hlength, ok_bind]
  dsimp only
  rw [rowValues, a.equality.value_eq, ok_bind, haffineEquality, ok_bind, a.inequality.value_eq, ok_bind,
    haffineInequality, ok_bind]
  -- The length is exact, so nothing is cut off.
  change Vec.takeExactly p.constraintCount (p.constraintVector a (z.drop p.variableCount)) = _
  have hclength := length_constraintVector a (length_slacks hlength)
  rw [Vec.takeExactly, if_pos hclength.ge, ← hclength, List.take_length]

end SlackForm

end LogBarrier
