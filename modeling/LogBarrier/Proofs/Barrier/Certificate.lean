import LogBarrier.Proofs.Barrier.Kkt
import LogBarrier.Proofs.TrustRegion.Diagnostics

/-!
# Reports as certificates

A report that describes an interior iterate bounds how far the conditions of Karush, Kuhn and Tucker
are from being satisfied there. The residual of a row with a slack differs from the constraint of
the subproblem by that slack, which is positive. So the violation bounds the inequalities from above
only, and strictly.
-/

namespace LogBarrier

open Extended

/-! ## Declared shapes -/

def Objective.Shaped (objective : Objective Extended) : Prop :=
  ∀ x g, x.length = objective.domain.dim → objective.gradient x = .ok g →
    g.length = objective.domain.dim

/-- At points in `n` variables the answers have the shape that is declared. -/
structure Constraints.Shaped (constraints : Constraints Extended) (n : ℕ) : Prop where
  value : ∀ x c, x.length = n → constraints.value x = .ok c → c.length = constraints.count
  jacobian : ∀ x op, x.length = n → constraints.jacobian x = .ok op →
    op.WellFormed ∧ op.rows = constraints.count ∧ op.cols = n

theorem Constraints.shaped_none (n : ℕ) : (Constraints.none : Constraints Extended).Shaped n where
  value _ _ _ h := by
    cases h
    rfl
  jacobian _ _ hx h := by
    cases h
    exact ⟨.dense _, rfl, hx⟩

theorem Constraints.nonempty_answers {constraints : Constraints Extended} {n : ℕ}
    {x c : Vec Extended} {op : Operator Extended} (hreal : constraints.RealValued)
    (hshaped : constraints.Shaped n) (hx : Vec.IsReal x) (hlength : x.length = n)
    (hvalue : constraints.value x = .ok c) (hjacobian : constraints.jacobian x = .ok op) :
    Nonempty (constraints.Answers n x) := by
  obtain ⟨hwellFormed, hrows, hcols⟩ := hshaped.jacobian x op hlength hjacobian
  exact ⟨{
    value := c
    jacobian := op
    value_eq := hvalue
    jacobian_eq := hjacobian
    isReal_value := (hreal.value x hx).of_eq_ok hvalue
    length_value := hshaped.value x c hlength hvalue
    isReal_jacobian := (hreal.jacobian x hx).of_eq_ok hjacobian
    wellFormed := hwellFormed
    rows_eq := hrows
    cols_eq := hcols }⟩

namespace SlackForm

variable {p : SlackForm Extended} {x s z v : Vec Extended} {level : Level Extended} {μ ω η : ℝ}

/-- The functions of the user answer in the shapes that are declared. -/
structure Shaped (p : SlackForm Extended) : Prop where
  objective : p.objective.Shaped
  equality : p.equality.Shaped p.variableCount
  inequality : p.inequality.Shaped p.variableCount

/-- Where the subproblem is evaluated, the functions of the user have been evaluated. -/
theorem nonempty_answers {g c : Vec Extended} {J : Operator Extended} (hp : p.RealValued)
    (hshaped : p.Shaped) (hz : p.Interior z) (hg : p.gradient level z = .ok g)
    (hc : p.constraints z = .ok c) (hJ : p.jacobian z = .ok J) :
    Nonempty (p.Answers (z.take p.variableCount)) := by
  have hx : Vec.IsReal (z.take p.variableCount) := hz.isReal.take _
  have hlength := length_variables hz.length_eq
  rw [gradient, split, if_pos hz.length_eq, ok_bind] at hg
  rw [constraints, split, if_pos hz.length_eq, ok_bind] at hc
  rw [jacobian, split, if_pos hz.length_eq, ok_bind] at hJ
  obtain ⟨gradient, hgradient, -⟩ := bind_eq_ok_iff.mp hg
  obtain ⟨_, hvalues, -⟩ := bind_eq_ok_iff.mp hc
  obtain ⟨equality, hequality, hvalues⟩ := bind_eq_ok_iff.mp hvalues
  obtain ⟨_, -, hvalues⟩ := bind_eq_ok_iff.mp hvalues
  obtain ⟨inequality, hinequality, -⟩ := bind_eq_ok_iff.mp hvalues
  obtain ⟨_, hrows, hJ⟩ := bind_eq_ok_iff.mp hJ
  obtain ⟨inequalityJacobian, hinequalityJacobian, -⟩ := bind_eq_ok_iff.mp hrows
  obtain ⟨equalityJacobian, hequalityJacobian, -⟩ := bind_eq_ok_iff.mp hJ
  obtain ⟨ofEquality⟩ := Constraints.nonempty_answers hp.equality hshaped.equality hx hlength
    hequality hequalityJacobian
  obtain ⟨ofInequality⟩ := Constraints.nonempty_answers hp.inequality hshaped.inequality hx hlength
    hinequality hinequalityJacobian
  exact ⟨⟨gradient, ofEquality, ofInequality, hgradient,
    (hp.objective.gradient _ hx).of_eq_ok hgradient, hshaped.objective _ _ hlength hgradient⟩⟩

/-! ## Certificates -/

/-- The conditions of Karush, Kuhn and Tucker up to errors: `ω` for the dual half and `η` for the
primal half. -/
structure Certificate (p : SlackForm Extended) (μ ω η : ℝ) (a : p.Answers x) (s v : ℕ → ℝ) :
    Prop where
  equality : ∀ i < p.equality.count, |a.equality.value.coord i| ≤ η
  affineEquality : ∀ i < p.affineEquality.count, |p.affineEquality.residualAt x i| ≤ η
  inequality : ∀ i < p.inequality.count, a.inequality.value.coord i < η
  affineInequality : ∀ i < p.affineInequality.count, p.affineInequality.residualAt x i < η
  upper : ∀ i ∈ p.upperBounded, p.aboveUpper x i < η
  lower : ∀ i ∈ p.lowerBounded, p.belowLower x i < η
  stationary : ∀ j < p.variableCount, |p.lagrangianSlope a v j| ≤ ω
  complementary : ∀ i < p.slackCount, |s i * v (p.equalityCount + i) - μ| ≤ ω

theorem certificate_of_bounds {a : p.Answers x} {σ f : ℕ → ℝ} {c : Vec Extended}
    (hσ : ∀ i < p.slackCount, 0 < σ i) (hblocks : p.ConstraintBlocks a σ c)
    (hc : ∀ i < p.constraintCount, |c.coord i| ≤ η)
    (hslope : ∀ j < p.dim, |p.slope μ a σ f j| ≤ ω) :
    p.Certificate μ ω η a σ f := by
  obtain ⟨hstationary, hcomplementary⟩ := (forall_slope_iff (P := fun t ↦ |t| ≤ ω)).mp hslope
  obtain ⟨hequality, haffineEquality, hslack⟩ := forall_constraint_iff.mp hc
  obtain ⟨hinequality, haffine, hupper, hlower⟩ := forall_slack_iff.mp hslack
  obtain ⟨hσinequality, hσaffine, hσupper, hσlower⟩ := forall_slack_iff.mp hσ
  -- A residual is the constraint without its slack, hence smaller.
  have hlt : ∀ {r t : ℝ}, |r + t| ≤ η → 0 < t → r < η := fun h ht ↦
    (lt_add_of_pos_right _ ht).trans_le ((le_abs_self _).trans h)
  constructor
  · intro i hi
    rw [← hblocks.equality i hi]
    exact hequality i hi
  · intro i hi
    rw [← hblocks.affineEquality i hi]
    exact haffineEquality i hi
  · intro i hi
    exact hlt (hblocks.inequality i hi ▸ hinequality i hi) (hσinequality i hi)
  · intro i hi
    exact hlt (hblocks.affineInequality i hi ▸ haffine i hi) (hσaffine i hi)
  · intro i hi
    obtain ⟨k, hk⟩ := List.mem_iff_getElem?.mp hi
    obtain ⟨hlength, -⟩ := List.getElem?_eq_some_iff.mp hk
    exact hlt (hblocks.upper k i hk ▸ hupper k hlength) (hσupper k hlength)
  · intro i hi
    obtain ⟨k, hk⟩ := List.mem_iff_getElem?.mp hi
    obtain ⟨hlength, -⟩ := List.getElem?_eq_some_iff.mp hk
    exact hlt (hblocks.lower k i hk ▸ hlower k hlength) (hσlower k hlength)
  · exact hstationary
  · intro i hi
    rw [sub_eq_neg_add]
    exact hcomplementary i hi

/-- The transposed Jacobian is applied to multipliers of the declared number only. -/
theorem length_multipliers_of_describes {report : Report Extended} (hp : p.AffineParts)
    (hz : p.Interior z) (a : p.Answers (z.take p.variableCount))
    (h : report.Describes (p.atLevel level) z) : report.multipliers.length = p.constraintCount := by
  obtain ⟨_, J, _, _, w, _, _, -, hJ, -, -, -, hw, -⟩ := h
  obtain rfl : p.jacobianOperator a (z.drop p.variableCount) = J :=
    Except.ok.inj ((jacobian_eq hp hz.length_eq a).symm.trans hJ)
  rw [DenseMatrix.trMulVec] at hw
  split_ifs at hw with hlength
  rw [hlength, Operator.rows_toMatrix, rows_jacobianOperator]

theorem certificate_of_describes {report : Report Extended} (hp : p.AffineParts)
    (hlevel : level.parameter = real μ) (hz : p.Interior z) (a : p.Answers (z.take p.variableCount))
    (hv : Vec.IsReal report.multipliers) (h : report.Describes (p.atLevel level) z) :
    ∃ ω η, report.optimality = real ω ∧ report.violation = real η
      ∧ p.Certificate μ ω η a (Vec.coord (z.drop p.variableCount)) report.multipliers.coord := by
  have hlength := length_multipliers_of_describes hp hz a h
  obtain ⟨g, J, _, _, w, t, c, hg, hJ, -, -, -, hw, ht, hoptimality, hc, hviolation⟩ := h
  -- What the report was computed from is what the functions of the subproblem give in coordinates.
  obtain ⟨g', J', w', hg', hJ', -, hw', ht'⟩ :=
    gradient_add_transposed hp hlevel hz a report.multipliers.coord
  rw [← hlength, Vec.ofCoords_coord hv] at hw'
  obtain rfl := Except.ok.inj (hg.symm.trans hg')
  obtain rfl := Except.ok.inj (hJ.symm.trans hJ')
  obtain rfl := Except.ok.inj (hw.symm.trans hw')
  obtain rfl := Except.ok.inj (ht.symm.trans ht')
  obtain rfl := Except.ok.inj (hc.symm.trans (constraints_eq hp hz.isReal hz.length_eq a))
  have hblocks := constraintBlocks a (hz.isReal.take _) (hz.isReal.drop _)
    (length_slacks hz.length_eq)
  obtain ⟨ω, hω, hslope, -⟩ := Vec.maxNorm_eq (Vec.isReal_ofCoords p.dim
    (p.slope μ a (Vec.coord (z.drop p.variableCount)) report.multipliers.coord))
  obtain ⟨η, hη, hconstraints, -⟩ := Vec.maxNorm_eq hblocks.isReal
  rw [hblocks.length_eq] at hconstraints
  refine ⟨ω, η, hoptimality.trans hω, hviolation.trans hη,
    certificate_of_bounds hz.coord_pos hblocks hconstraints fun j hj ↦ ?_⟩
  rw [Vec.length_ofCoords] at hslope
  have hbound := hslope j hj
  rwa [Vec.coord_ofCoords hj] at hbound

/-- If the parameter is not negative, the largest product of a slack with its multiplier is as near
to it as all the products are. -/
theorem Certificate.exists_product {a : p.Answers x}
    (h : p.Certificate μ ω η a s.coord v.coord) (hμ : 0 ≤ μ) (hs : Vec.IsReal s)
    (hslength : s.length = p.slackCount) (hv : Vec.IsReal v)
    (hlength : v.length = p.constraintCount) (hpos : 0 < p.slackCount) :
    ∃ κ, Vec.maxNorm (List.zipWith (· * ·) s (v.drop p.equalityCount)) = real κ ∧ |κ - μ| ≤ ω := by
  have hdrop : v.drop p.equalityCount =
      Vec.ofCoords p.slackCount fun i ↦ v.coord (p.equalityCount + i) :=
    Vec.drop_eq_ofCoords hv hlength
  rw [← Vec.ofCoords_coord hs, hslength, hdrop,
    Vec.zipWith_ofCoords (· * ·) fun _ _ ↦ rfl]
  obtain ⟨κ, hκ, -, hattained⟩ := Vec.maxNorm_eq (Vec.isReal_ofCoords p.slackCount
    fun i ↦ s.coord i * v.coord (p.equalityCount + i))
  obtain ⟨i, hi, rfl⟩ := hattained (List.ne_nil_of_length_pos (by rwa [Vec.length_ofCoords]))
  rw [Vec.length_ofCoords] at hi
  refine ⟨_, hκ, ?_⟩
  rw [Vec.coord_ofCoords hi]
  calc |(|s.coord i * v.coord (p.equalityCount + i)| - μ)|
      = |(|s.coord i * v.coord (p.equalityCount + i)| - |μ|)| := by rw [abs_of_nonneg hμ]
    _ ≤ |s.coord i * v.coord (p.equalityCount + i) - μ| := abs_abs_sub_abs_le _ _
    _ ≤ ω := h.complementary i hi

end SlackForm

end LogBarrier
