import LogBarrier.Proofs.Barrier.Blocks
import LogBarrier.Proofs.Shape.Operator

/-!
# The Jacobian of the slack form

The Jacobian is a grid of operators in which another grid is nested. Both are written out here, and
the product of the transposed Jacobian with a vector of multipliers is a sum over the six blocks of
multipliers in the variables, and a single product in each slack.
-/

namespace LogBarrier

open Extended

namespace SlackForm

section Bounded

variable {α : Type} [Scalar α] {p : SlackForm α}

theorem lt_of_mem_upperBounded {i : ℕ} (h : i ∈ p.upperBounded) : i < p.variableCount := by
  have hi := List.mem_range.mp (List.mem_filter.mp h).1
  rwa [← p.objective.domain.length_eq] at hi

theorem lt_of_mem_lowerBounded {i : ℕ} (h : i ∈ p.lowerBounded) : i < p.variableCount :=
  List.mem_range.mp (List.mem_filter.mp h).1

end Bounded

variable {p : SlackForm Extended} {x s z : Vec Extended}

/-- The rows of the inequalities, without their slack columns. -/
noncomputable def inequalityOperator (p : SlackForm Extended) (a : p.Answers x) :
    Operator Extended :=
  .block [a.inequality.jacobian.rows, p.affineInequality.matrix.rows, p.upperBounded.length,
      p.lowerBounded.length] [p.variableCount]
    [⟨0, 0, a.inequality.jacobian⟩, ⟨1, 0, .dense p.affineInequality.matrix⟩,
      ⟨2, 0, .selection p.upperBounded p.variableCount 1⟩,
      ⟨3, 0, .selection p.lowerBounded p.variableCount (-1)⟩]

/-- The scaled Jacobian at variables with the given slacks. -/
noncomputable def jacobianOperator (p : SlackForm Extended) (a : p.Answers x) (s : Vec Extended) :
    Operator Extended :=
  .block [p.equality.count, p.affineEquality.count, p.slackCount] [p.variableCount, p.slackCount]
    [⟨0, 0, a.equality.jacobian⟩, ⟨1, 0, .dense p.affineEquality.matrix⟩,
      ⟨2, 0, p.inequalityOperator a⟩, ⟨2, 1, .diagonal s⟩]

/-! ## Evaluation -/

theorem inequalityRows_eq (hp : p.AffineParts) (a : p.Answers x) :
    p.inequalityRows x = .ok (p.inequalityOperator a) := by
  rw [inequalityRows, a.inequality.jacobian_eq, ok_bind,
    Operator.select_eq _ fun i hi ↦ lt_of_mem_upperBounded hi, ok_bind,
    Operator.select_eq _ fun i hi ↦ lt_of_mem_lowerBounded hi, ok_bind, Grid.stack_eq]
  · rfl
  · simp only [List.mem_cons, List.not_mem_nil, or_false]
    rintro op (rfl | rfl | rfl | rfl)
    · exact a.inequality.cols_eq
    · exact hp.cols_inequality
    · rfl
    · rfl

theorem rows_inequalityOperator (a : p.Answers x) :
    (p.inequalityOperator a).rows = p.slackCount := by
  rw [inequalityOperator, Operator.rows, a.inequality.rows_eq, p.affineInequality.rows_eq]
  simp only [Operator.total_cons, Operator.total_nil, slackCount, AffineSystem.count]
  omega

theorem jacobian_eq (hp : p.AffineParts) (hlength : z.length = p.dim)
    (a : p.Answers (z.take p.variableCount)) :
    p.jacobian z = .ok (p.jacobianOperator a (z.drop p.variableCount)) := by
  have hslength := length_slacks hlength
  rw [jacobian, split, if_pos hlength, ok_bind]
  dsimp only
  rw [inequalityRows_eq hp a, ok_bind, assemble, a.equality.jacobian_eq, ok_bind, Grid.zeros,
    Grid.place_eq (by simp) (by simp) a.equality.rows_eq a.equality.cols_eq, ok_bind,
    Grid.place_eq (by simp) (by simp) (by exact p.affineEquality.rows_eq)
      (by exact hp.cols_equality), ok_bind,
    Grid.place_eq (by simp) (by simp) (rows_inequalityOperator a) rfl, ok_bind,
    Grid.place_eq (by simp) (by simp) (by exact hslength) (by exact hslength), ok_bind]
  rfl

/-! ## Shape -/

theorem wellFormed_inequalityOperator (hp : p.AffineParts) (a : p.Answers x) :
    (p.inequalityOperator a).WellFormed := by
  refine .block ?_ ?_ (by simp)
  · simp only [List.forall_mem_cons, List.not_mem_nil, IsEmpty.forall_iff, implies_true, and_true]
    exact ⟨a.inequality.wellFormed, .dense _, .selection 1 fun i hi ↦ lt_of_mem_upperBounded hi,
      .selection (-1) fun i hi ↦ lt_of_mem_lowerBounded hi⟩
  · simp only [List.forall_mem_cons, List.not_mem_nil, IsEmpty.forall_iff, implies_true, and_true]
    exact ⟨⟨rfl, a.inequality.cols_eq⟩, ⟨rfl, hp.cols_inequality⟩, ⟨rfl, rfl⟩, ⟨rfl, rfl⟩⟩

theorem isReal_inequalityOperator (hp : p.AffineParts) (a : p.Answers x) :
    (p.inequalityOperator a).IsReal := by
  refine .block ?_
  simp only [List.forall_mem_cons, List.not_mem_nil, IsEmpty.forall_iff, implies_true, and_true]
  exact ⟨a.inequality.isReal_jacobian, .dense hp.inequality.matrix, .selection isReal_one,
    .selection isReal_one.neg⟩

theorem wellFormed_jacobianOperator (hp : p.AffineParts) (a : p.Answers x)
    (hs : s.length = p.slackCount) : (p.jacobianOperator a s).WellFormed := by
  refine .block ?_ ?_ (by simp)
  · simp only [List.forall_mem_cons, List.not_mem_nil, IsEmpty.forall_iff, implies_true, and_true]
    exact ⟨a.equality.wellFormed, .dense _, wellFormed_inequalityOperator hp a, .diagonal s⟩
  · simp only [List.forall_mem_cons, List.not_mem_nil, IsEmpty.forall_iff, implies_true, and_true]
    exact ⟨⟨a.equality.rows_eq, a.equality.cols_eq⟩, ⟨p.affineEquality.rows_eq, hp.cols_equality⟩,
      ⟨rows_inequalityOperator a, rfl⟩, ⟨hs, hs⟩⟩

theorem isReal_jacobianOperator (hp : p.AffineParts) (a : p.Answers x) (hs : Vec.IsReal s) :
    (p.jacobianOperator a s).IsReal := by
  refine .block ?_
  simp only [List.forall_mem_cons, List.not_mem_nil, IsEmpty.forall_iff, implies_true, and_true]
  exact ⟨a.equality.isReal_jacobian, .dense hp.equality.matrix, isReal_inequalityOperator hp a,
    .diagonal hs⟩

theorem rows_jacobianOperator (a : p.Answers x) (s : Vec Extended) :
    (p.jacobianOperator a s).rows = p.constraintCount := by
  rw [jacobianOperator, Operator.rows]
  simp only [Operator.total_cons, Operator.total_nil, constraintCount, equalityCount]
  omega

theorem cols_jacobianOperator (a : p.Answers x) (s : Vec Extended) :
    (p.jacobianOperator a s).cols = p.dim := by
  rw [jacobianOperator, Operator.cols]
  simp only [Operator.total_cons, Operator.total_nil, dim]
  omega

/-! ## Products with multipliers -/

/-- The part of the gradient of the Lagrangian by variable `j` that the rows with a slack make,
given their multipliers. -/
noncomputable def inequalitySlope (p : SlackForm Extended) (a : p.Answers x) (w : ℕ → ℝ) (j : ℕ) :
    ℝ :=
  ∑ i ∈ Finset.range p.inequality.count, a.inequality.jacobian.coeff i j * w i
    + ∑ i ∈ Finset.range p.affineInequality.count,
        p.affineInequality.matrix.coeff i j * w (p.affineStart + i)
    + ∑ k ∈ Finset.range p.upperBounded.length,
        (if p.upperBounded[k]? = some j then w (p.upperStart + k) else 0)
    - ∑ k ∈ Finset.range p.lowerBounded.length,
        (if p.lowerBounded[k]? = some j then w (p.lowerStart + k) else 0)

/-- The gradient of the Lagrangian by variable `j`, given all multipliers. -/
noncomputable def lagrangianSlope (p : SlackForm Extended) (a : p.Answers x) (v : ℕ → ℝ) (j : ℕ) :
    ℝ :=
  a.gradient.coord j
    + ∑ i ∈ Finset.range p.equality.count, a.equality.jacobian.coeff i j * v i
    + ∑ i ∈ Finset.range p.affineEquality.count,
        p.affineEquality.matrix.coeff i j * v (p.equality.count + i)
    + p.inequalitySlope a (fun i ↦ v (p.equalityCount + i)) j

theorem transposedPart_of_first_col {heights widths : List ℕ} {row width count j : ℕ}
    {op : Operator Extended} (start : ℕ) (hrows : op.rows = count) (hcols : op.cols = width)
    (hstart : Operator.offset heights row = start) (f : ℕ → ℝ) (hj : j < width) :
    Operator.transposedPart heights (width :: widths) ⟨row, 0, op⟩ f j =
      ∑ i ∈ Finset.range count, op.coeff i j * f (start + i) := by
  have hoffset : Operator.offset (width :: widths) 0 = 0 := rfl
  rw [Operator.transposedPart]
  dsimp only
  rw [hoffset, if_pos ⟨Nat.zero_le j, by omega⟩, Nat.sub_zero, hrows, hstart]

/-- Beyond the first columns only the others count. -/
theorem transposedPart_of_first_col_le {heights widths : List ℕ} {row width j : ℕ}
    {op : Operator Extended} (hcols : op.cols = width) (f : ℕ → ℝ) (hj : width ≤ j) :
    Operator.transposedPart heights (width :: widths) ⟨row, 0, op⟩ f j = 0 := by
  have hoffset : Operator.offset (width :: widths) 0 = 0 := rfl
  rw [Operator.transposedPart]
  dsimp only
  rw [hoffset, if_neg (by omega)]

theorem sum_selection (indices : List ℕ) {width j : ℕ} (σ : ℝ) (f : ℕ → ℝ) (hj : j < width) :
    ∑ i ∈ Finset.range indices.length, (Operator.selection indices width (real σ)).coeff i j * f i =
      σ * ∑ i ∈ Finset.range indices.length, (if indices[i]? = some j then f i else 0) := by
  rw [Finset.mul_sum]
  refine Finset.sum_congr rfl fun i hi ↦ ?_
  rw [Operator.coeff_selection σ (Finset.mem_range.mp hi) hj]
  split_ifs
  · rfl
  · rw [zero_mul, mul_zero]

theorem sum_inequalityOperator (hp : p.AffineParts) (a : p.Answers x) (w : ℕ → ℝ) {j : ℕ}
    (hj : j < p.variableCount) :
    ∑ i ∈ Finset.range p.slackCount, (p.inequalityOperator a).coeff i j * w i =
      p.inequalitySlope a w j := by
  have hwidth : j < Operator.total [p.variableCount] := hj
  rw [← rows_inequalityOperator a]
  refine (Operator.sum_coeff_block (wellFormed_inequalityOperator hp a) w hwidth).trans ?_
  simp only [List.map_cons, List.map_nil, List.sum_cons, List.sum_nil]
  rw [a.inequality.rows_eq, p.affineInequality.rows_eq,
    transposedPart_of_first_col 0 a.inequality.rows_eq a.inequality.cols_eq rfl w hj,
    transposedPart_of_first_col p.affineStart (by exact p.affineInequality.rows_eq)
      (by exact hp.cols_inequality) (by simp [Operator.offset, affineStart]) w hj,
    transposedPart_of_first_col p.upperStart (by rfl) (by rfl)
      (by simp [Operator.offset, upperStart, AffineSystem.count]) w hj,
    transposedPart_of_first_col p.lowerStart (by rfl) (by rfl)
      (by simp [Operator.offset, lowerStart, upperStart, AffineSystem.count, add_assoc]) w hj]
  -- The two selections turn into sums over the bounds, one of them with a negative sign.
  have hupper := sum_selection p.upperBounded 1 (fun k ↦ w (p.upperStart + k)) hj
  have hlower := sum_selection p.lowerBounded (-1) (fun k ↦ w (p.lowerStart + k)) hj
  change _ + (_ + (∑ k ∈ Finset.range p.upperBounded.length, _
    + (∑ k ∈ Finset.range p.lowerBounded.length, _ + 0))) = _
  have hone : (1 : Extended) = real 1 := rfl
  rw [hone, real_neg, hupper, hlower, inequalitySlope, one_mul, neg_one_mul, add_zero]
  simp only [zero_add]
  rw [sub_eq_add_neg, add_assoc, add_assoc]
  rfl

theorem transposedPart_slack (hs : s.length = p.slackCount) (v : ℕ → ℝ) (j : ℕ) :
    Operator.transposedPart [p.equality.count, p.affineEquality.count, p.slackCount]
        [p.variableCount, p.slackCount] ⟨2, 1, .diagonal s⟩ v j =
      if p.variableCount ≤ j ∧ j < p.variableCount + p.slackCount then
        s.coord (j - p.variableCount) * v (p.equalityCount + (j - p.variableCount))
      else 0 := by
  have hcol : Operator.offset [p.variableCount, p.slackCount] 1 = p.variableCount := by
    simp [Operator.offset]
  have hrow : Operator.offset [p.equality.count, p.affineEquality.count, p.slackCount] 2
      = p.equalityCount := by
    simp [Operator.offset, equalityCount]
  have hcols : (Operator.diagonal s).cols = p.slackCount := hs
  rw [Operator.transposedPart]
  dsimp only
  rw [hcol, hrow, hcols]
  refine if_ctx_congr Iff.rfl (fun hj ↦ ?_) fun _ ↦ rfl
  exact Operator.sum_diagonal (fun i ↦ v (p.equalityCount + i)) (by omega)

section Transposed

variable (hp : p.AffineParts) (a : p.Answers x) (hs : s.length = p.slackCount) (v : ℕ → ℝ) {j : ℕ}

include hp hs

theorem sum_jacobianOperator (hj : j < p.dim) :
    ∑ i ∈ Finset.range p.constraintCount, (p.jacobianOperator a s).coeff i j * v i =
      ([⟨0, 0, a.equality.jacobian⟩, ⟨1, 0, .dense p.affineEquality.matrix⟩,
          ⟨2, 0, p.inequalityOperator a⟩, ⟨2, 1, .diagonal s⟩].map fun b ↦
        Operator.transposedPart [p.equality.count, p.affineEquality.count, p.slackCount]
          [p.variableCount, p.slackCount] b v j).sum := by
  have hwidth : j < Operator.total [p.variableCount, p.slackCount] := by
    rw [dim] at hj
    simp only [Operator.total_cons, Operator.total_nil]
    omega
  rw [← rows_jacobianOperator a s]
  exact Operator.sum_coeff_block (wellFormed_jacobianOperator hp a hs) v hwidth

/-- In a variable, the gradient and the transposed Jacobian make the gradient of the Lagrangian. -/
theorem sum_jacobianOperator_variable (hj : j < p.variableCount) :
    a.gradient.coord j
        + ∑ i ∈ Finset.range p.constraintCount, (p.jacobianOperator a s).coeff i j * v i =
      p.lagrangianSlope a v j := by
  have hdim : j < p.dim := by
    rw [dim]
    omega
  have hblocks := sum_jacobianOperator hp a hs v hdim
  simp only [List.map_cons, List.map_nil, List.sum_cons, List.sum_nil] at hblocks
  rw [transposedPart_of_first_col 0 a.equality.rows_eq a.equality.cols_eq rfl v hj,
    transposedPart_of_first_col p.equality.count (by exact p.affineEquality.rows_eq)
      (by exact hp.cols_equality) (by simp [Operator.offset]) v hj,
    transposedPart_of_first_col p.equalityCount (rows_inequalityOperator a) (by rfl)
      (by simp [Operator.offset, equalityCount]) v hj,
    sum_inequalityOperator hp a _ hj, transposedPart_slack hs, if_neg (by omega)] at hblocks
  rw [hblocks, lagrangianSlope, add_zero, add_zero, ← add_assoc, ← add_assoc]
  simp only [zero_add]
  rfl

/-- In a slack, the transposed Jacobian is the product of the slack with its multiplier. -/
theorem sum_jacobianOperator_slack (hj : j < p.slackCount) :
    ∑ i ∈ Finset.range p.constraintCount,
        (p.jacobianOperator a s).coeff i (p.variableCount + j) * v i =
      s.coord j * v (p.equalityCount + j) := by
  have hdim : p.variableCount + j < p.dim := by
    rw [dim]
    omega
  have hle : p.variableCount ≤ p.variableCount + j := Nat.le_add_right _ _
  have hblocks := sum_jacobianOperator hp a hs v hdim
  simp only [List.map_cons, List.map_nil, List.sum_cons, List.sum_nil] at hblocks
  -- The first three blocks end before the slack columns.
  rw [transposedPart_of_first_col_le a.equality.cols_eq v hle,
    transposedPart_of_first_col_le (by exact hp.cols_equality) v hle,
    transposedPart_of_first_col_le (by rfl) v hle, transposedPart_slack hs, if_pos (by omega),
    Nat.add_sub_cancel_left] at hblocks
  rw [hblocks, zero_add, zero_add, zero_add, add_zero]

end Transposed

end SlackForm

end LogBarrier
