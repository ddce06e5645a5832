import LogBarrier.Proofs.Barrier.Hessian
import Mathlib.Analysis.SpecialFunctions.Log.Deriv
import Mathlib.Topology.Algebra.Module.ModuleTopology

/-!
# The value along a scaled step

The value with the barrier, the scaled gradient and the scaled Hessian are computed by separate
functions of the subproblem. They belong to one function of the scaled step.

## Why the slacks drop out

A multiple `t` of a scaled step takes a slack `s` to `s (1 + t d)`, and the logarithm of a product
is the sum of the logarithms. So the slacks enter the value by a constant, and the barrier adds
`-μ ∑ ln (1 + t d)` to the change of the objective. At `t = 0` the first derivative of this sum is
the product of `d` with the slack part of the gradient. Its second derivative is `μ ∑ d²`, and `μ`
is the weight of a slack in the Hessian unless its multiplier is positive.
-/

namespace LogBarrier

open Extended Matrix Topology

/-- The real number that a computation answers, zero if there is none. -/
noncomputable def answered : Except Fault Extended → ℝ
  | .ok a => a.toReal
  | .error _ => 0

/-- The gradient that the objective answers at the point `x` in `n` variables is its derivative
there. Close to this point, all values have to be real numbers. -/
structure Objective.DifferentiableAt (objective : Objective Extended) (n : ℕ)
    (x g : Vec Extended) : Prop where
  gradient_eq : objective.gradient x = .ok g
  inSpace : Vec.InSpace n g
  value_eq : ∀ᶠ u in 𝓝 (Vec.tuple n x), ∃ r, objective.value (Vec.ofTuple u) = .ok (real r)
  hasFDerivAt : ∃ f' : (Fin n → ℝ) →L[ℝ] ℝ,
    HasFDerivAt (fun u ↦ answered (objective.value (Vec.ofTuple u))) f' (Vec.tuple n x)
      ∧ ∀ u, f' u = Vec.tuple n g ⬝ᵥ u

namespace Objective

variable {objective : Objective Extended} {n : ℕ} {x g : Vec Extended}

theorem hasDerivAt_line_add (x u : Fin n → ℝ) : HasDerivAt (fun t : ℝ ↦ x + t • u) u 0 := by
  have hline := ((hasDerivAt_id' (0 : ℝ)).smul_const u).const_add x
  rwa [one_smul] at hline

/-- On a line, the slope of the objective is what the gradient predicts. -/
theorem DifferentiableAt.hasDerivAt_line (h : objective.DifferentiableAt n x g) (u : Fin n → ℝ) :
    HasDerivAt (fun t : ℝ ↦ answered (objective.value (Vec.ofTuple (Vec.tuple n x + t • u))))
      (Vec.tuple n g ⬝ᵥ u) 0 := by
  obtain ⟨f', hf', hgradient⟩ := h.hasFDerivAt
  have hline := hf'.comp_hasDerivAt_of_eq 0 (hasDerivAt_line_add (Vec.tuple n x) u)
    (by rw [zero_smul, add_zero])
  rwa [hgradient] at hline

theorem DifferentiableAt.eventually_value_eq (h : objective.DifferentiableAt n x g)
    (u : Fin n → ℝ) : ∀ᶠ t in 𝓝 (0 : ℝ),
      ∃ r, objective.value (Vec.ofTuple (Vec.tuple n x + t • u)) = .ok (real r) := by
  have hline := (hasDerivAt_line_add (Vec.tuple n x) u).continuousAt.tendsto
  rw [zero_smul, add_zero] at hline
  exact hline.eventually h.value_eq

end Objective

theorem Operator.apply_zeros {op : Operator Extended} (h : op.WellFormed) (hop : op.IsReal) :
    op.apply (Vec.zeros op.cols) = .ok (Vec.zeros op.rows) := by
  rw [Vec.zeros_eq_ofCoords, apply_ofCoords h hop, Vec.zeros_eq_ofCoords]
  simp only [mul_zero, Finset.sum_const_zero]

namespace SlackForm

/-- The value at the iterate plus a multiple of the scaled step. -/
def valueAlong {α : Type} [Scalar α] (p : SlackForm α) (level : Level α) (z d : Vec α) (t : α) :
    Except Fault α := do
  let δ ← (← p.scaling z).apply d
  p.value level (← Vec.add z (Vec.scale δ t))

variable {p : SlackForm Extended} {level : Level Extended} {H : Operator Extended}
  {z d v g : Vec Extended} {μ a b t : ℝ} {f : ℕ → ℝ}

/-! ## The logarithms of the slacks -/

/-- The change of the sum of the logarithms of the slacks along a scaled step. -/
noncomputable def logChange (p : SlackForm Extended) (d : Vec Extended) (t : ℝ) : ℝ :=
  ∑ k ∈ Finset.range p.slackCount, Real.log (1 + t * d.coord (p.variableCount + k))

noncomputable def logSlope (p : SlackForm Extended) (d : Vec Extended) (t : ℝ) : ℝ :=
  ∑ k ∈ Finset.range p.slackCount,
    d.coord (p.variableCount + k) / (1 + t * d.coord (p.variableCount + k))

/-- At this multiple of the step all slacks are still positive. -/
def KeepsSlacks (p : SlackForm Extended) (d : Vec Extended) (t : ℝ) : Prop :=
  ∀ k < p.slackCount, 0 < 1 + t * d.coord (p.variableCount + k)

theorem hasDerivAt_relative (c t : ℝ) : HasDerivAt (fun t ↦ 1 + t * c) c t := by
  have hproduct := ((hasDerivAt_id' t).mul_const c).const_add 1
  rwa [one_mul] at hproduct

theorem eventually_keepsSlacks (p : SlackForm Extended) (d : Vec Extended) :
    ∀ᶠ t in 𝓝 0, p.KeepsSlacks d t := by
  have hslack : ∀ k ∈ Finset.range p.slackCount,
      ∀ᶠ t in 𝓝 0, 0 < 1 + t * d.coord (p.variableCount + k) := by
    intro k _
    have hstart : 0 < 1 + 0 * d.coord (p.variableCount + k) := by
      rw [zero_mul, add_zero]
      exact one_pos
    exact (hasDerivAt_relative (d.coord (p.variableCount + k)) 0).continuousAt.eventually
      (lt_mem_nhds hstart)
  filter_upwards [(Filter.eventually_all_finset _).mpr hslack] with t ht k hk
  exact ht k (Finset.mem_range.mpr hk)

theorem hasDerivAt_logChange (h : p.KeepsSlacks d t) :
    HasDerivAt (p.logChange d) (p.logSlope d t) t := by
  refine HasDerivAt.fun_sum fun k hk ↦ ?_
  exact (hasDerivAt_relative _ t).log (h k (Finset.mem_range.mp hk)).ne'

theorem logSlope_zero (p : SlackForm Extended) (d : Vec Extended) :
    p.logSlope d 0 = ∑ k ∈ Finset.range p.slackCount, d.coord (p.variableCount + k) := by
  simp only [logSlope, zero_mul, add_zero, div_one]

theorem hasDerivAt_logSlope (p : SlackForm Extended) (d : Vec Extended) :
    HasDerivAt (p.logSlope d)
      (-∑ k ∈ Finset.range p.slackCount, d.coord (p.variableCount + k) ^ 2) 0 := by
  rw [← Finset.sum_neg_distrib]
  refine HasDerivAt.fun_sum fun k _ ↦ ?_
  have hquotient := (hasDerivAt_const (0 : ℝ) (d.coord (p.variableCount + k))).fun_div
    (hasDerivAt_relative (d.coord (p.variableCount + k)) 0)
    (by rw [zero_mul, add_zero]; exact one_ne_zero)
  refine hquotient.congr_deriv ?_
  ring

/-! ## The value after a scaled step -/

theorem foldl_ln_ofCoords {n : ℕ} (hf : ∀ i < n, 0 < f i) :
    (Vec.ofCoords n f).foldl (fun acc a ↦ acc + Scalar.ln a) 0 =
      real (∑ i ∈ Finset.range n, Real.log (f i)) := by
  rw [Vec.ofCoords]
  induction n with
  | zero => rfl
  | succ n ih =>
    rw [List.range_succ, List.map_append, List.foldl_append,
      ih fun i hi ↦ hf i (hi.trans n.lt_succ_self), Finset.sum_range_succ]
    exact congrArg (_ + ·) (ln_real (hf n n.lt_succ_self))

/-- At positive slacks the value is a real number whenever that of the objective is. -/
theorem value_ofCoords (hlevel : level.parameter = real μ)
    (hpos : ∀ k < p.slackCount, 0 < f (p.variableCount + k))
    (ha : p.objective.value (Vec.ofCoords p.variableCount f) = .ok (real a)) :
    p.value level (Vec.ofCoords p.dim f) = .ok (real (a
      - μ * ∑ k ∈ Finset.range p.slackCount, Real.log (f (p.variableCount + k)))) := by
  have hslacks : requirePositive
      (Vec.ofCoords p.slackCount fun k ↦ f (p.variableCount + k)) = .ok () := by
    refine requirePositive_eq_ok_iff.mpr fun b hb ↦ ?_
    obtain ⟨k, hk, rfl⟩ := List.mem_map.mp hb
    exact hpos k (List.mem_range.mp hk)
  have hsplit := Vec.ofCoords_add p.variableCount p.slackCount f
  rw [value, split, if_pos (Vec.length_ofCoords _ _), ok_bind, dim, hsplit,
    List.take_left' (Vec.length_ofCoords _ _), List.drop_left' (Vec.length_ofCoords _ _)]
  dsimp only
  rw [hslacks, ok_bind, ha, ok_bind, foldl_ln_ofCoords hpos, hlevel, real_mul, real_sub]
  rfl

/-- The coordinates of the iterate plus a multiple of the scaled step. -/
noncomputable def movedCoord (p : SlackForm Extended) (z d : Vec Extended) (t : ℝ) (j : ℕ) : ℝ :=
  z.coord j + d.coord j * p.scaleAt z j * t

theorem movedCoord_variable {j : ℕ} (hj : j < p.variableCount) :
    p.movedCoord z d t j = z.coord j + t * d.coord j := by
  rw [movedCoord, scaleAt_variable hj, mul_one, mul_comm]

theorem movedCoord_slack (k : ℕ) : p.movedCoord z d t (p.variableCount + k) =
    z.coord (p.variableCount + k) * (1 + t * d.coord (p.variableCount + k)) := by
  rw [movedCoord, scaleAt_slack]
  ring

/-- The value after a multiple of the scaled step, by the slacks before it and their relative
changes. -/
theorem value_moved (hlevel : level.parameter = real μ) (hz : p.Interior z)
    (ht : p.KeepsSlacks d t) (ha : p.objective.value
      (Vec.ofCoords p.variableCount fun j ↦ z.coord j + t * d.coord j) = .ok (real a)) :
    p.value level (Vec.ofCoords p.dim (p.movedCoord z d t)) = .ok (real (a
      - μ * (∑ k ∈ Finset.range p.slackCount, Real.log (z.coord (p.variableCount + k))
        + p.logChange d t))) := by
  have hvariables := Vec.ofCoords_congr fun j (hj : j < p.variableCount) ↦
    movedCoord_variable (z := z) (d := d) (t := t) hj
  have hpos : ∀ k < p.slackCount, 0 < p.movedCoord z d t (p.variableCount + k) := by
    intro k hk
    rw [movedCoord_slack]
    exact mul_pos (hz.slack_pos hk) (ht k hk)
  rw [value_ofCoords hlevel hpos (hvariables ▸ ha), logChange, ← Finset.sum_add_distrib]
  refine congrArg (fun s ↦ Except.ok (real (a - μ * s))) (Finset.sum_congr rfl fun k hk ↦ ?_)
  rw [movedCoord_slack, Real.log_mul (hz.slack_pos (Finset.mem_range.mp hk)).ne'
    (ht k (Finset.mem_range.mp hk)).ne']

theorem exists_scaled (hz : p.Interior z) (hd : Vec.InSpace p.dim d) :
    ∃ D δ, p.scaling z = .ok D ∧ D.apply d = .ok δ
      ∧ Vec.add z δ = .ok (Vec.ofCoords p.dim (p.movedCoord z d 1))
      ∧ ∀ t, Vec.add z (Vec.scale δ (real t)) = .ok (Vec.ofCoords p.dim (p.movedCoord z d t)) := by
  obtain ⟨D, hD, hδ⟩ := scaling_apply (p := p) hz.isReal hz.length_eq d.coord
  rw [Vec.ofCoords_coord_of_length hd.isReal hd.length_eq] at hδ
  have hscaled : ∀ t, Vec.add z (Vec.scale (Vec.ofCoords p.dim fun j ↦ d.coord j * p.scaleAt z j)
      (real t)) = .ok (Vec.ofCoords p.dim (p.movedCoord z d t)) := by
    intro t
    rw [Vec.scale_ofCoords]
    nth_rewrite 1 [← Vec.ofCoords_coord_of_length hz.isReal hz.length_eq]
    exact Vec.add_ofCoords _ _ _
  refine ⟨D, _, hD, hδ, ?_, hscaled⟩
  have hone := hscaled 1
  rw [Vec.scale_ofCoords] at hone
  simpa only [mul_one] using hone

/-- The change of the value does not depend on the slacks, only on their relative changes. -/
theorem exists_value_sub (hlevel : level.parameter = real μ) (hz : p.Interior z)
    (hd : Vec.InSpace p.dim d) (hkeeps : ∀ k < p.slackCount, -1 < d.coord (p.variableCount + k))
    (ha : p.objective.value (z.take p.variableCount) = .ok (real a))
    (hb : p.objective.value (List.zipWith (· + ·) (z.take p.variableCount)
      (d.take p.variableCount)) = .ok (real b)) :
    ∃ D δ w A B, p.scaling z = .ok D ∧ D.apply d = .ok δ ∧ Vec.add z δ = .ok w
      ∧ p.value level z = .ok (real A) ∧ p.value level w = .ok (real B)
      ∧ B - A = b - a - μ * p.logChange d 1 := by
  have hle : p.variableCount ≤ p.dim := Nat.le_add_right _ _
  have hx := Vec.take_eq_ofCoords hz.isReal (hz.length_eq ▸ hle)
  have hdx := Vec.take_eq_ofCoords hd.isReal (hd.length_eq ▸ hle)
  obtain ⟨D, δ, hD, hδ, hw, -⟩ := exists_scaled hz hd
  have hstart := value_ofCoords hlevel (fun k hk ↦ hz.slack_pos hk) (hx ▸ ha)
  rw [Vec.ofCoords_coord_of_length hz.isReal hz.length_eq] at hstart
  have hpositive : p.KeepsSlacks d 1 := by
    intro k hk
    have hchange := hkeeps k hk
    linarith
  have hend := value_moved (a := b) hlevel hz hpositive (by
    rw [hx, hdx, Vec.zipWith_ofCoords (· + ·) fun _ _ ↦ rfl] at hb
    simpa only [one_mul] using hb)
  refine ⟨D, δ, _, _, _, hD, hδ, hw, hstart, hend, ?_⟩
  ring

/-! ## The first derivative -/

theorem tuple_take {n : ℕ} (x : Vec Extended) : Vec.tuple n (x.take n) = Vec.tuple n x :=
  funext fun i ↦ Vec.coord_take i.2

theorem ofTuple_line {n : ℕ} (x u : Vec Extended) (t : ℝ) :
    Vec.ofTuple (Vec.tuple n x + t • Vec.tuple n u) =
      Vec.ofCoords n fun j ↦ x.coord j + t * u.coord j :=
  Vec.ofCoords_congr fun _ hj ↦ dif_pos hj

/-- Close to the iterate, the value along a step is that of the objective with the barrier. -/
theorem eventually_valueAlong (hlevel : level.parameter = real μ) (hz : p.Interior z)
    (hd : Vec.InSpace p.dim d)
    (hg : p.objective.DifferentiableAt p.variableCount (z.take p.variableCount) g) :
    ∀ᶠ t in 𝓝 (0 : ℝ), p.valueAlong level z d (real t) = .ok (real
      (answered (p.objective.value
          (Vec.ofTuple (Vec.tuple p.variableCount z + t • Vec.tuple p.variableCount d)))
        - μ * (∑ k ∈ Finset.range p.slackCount, Real.log (z.coord (p.variableCount + k))
          + p.logChange d t))) := by
  obtain ⟨D, δ, hD, hδ, -, hw⟩ := exists_scaled hz hd
  have hvalue := hg.eventually_value_eq (Vec.tuple p.variableCount d)
  rw [tuple_take] at hvalue
  filter_upwards [hvalue, eventually_keepsSlacks p d] with t ⟨r, hr⟩ ht
  rw [valueAlong, hD, ok_bind, hδ, ok_bind, hw, ok_bind, hr]
  rw [ofTuple_line] at hr
  exact value_moved hlevel hz ht hr

theorem exists_gradient_dot (hlevel : level.parameter = real μ) (hz : p.Interior z)
    (hd : Vec.InSpace p.dim d)
    (hg : p.objective.DifferentiableAt p.variableCount (z.take p.variableCount) g) :
    ∃ γ, p.gradient level z = .ok γ ∧ Vec.dot γ d = .ok (real
      (Vec.tuple p.variableCount g ⬝ᵥ Vec.tuple p.variableCount d - μ * p.logSlope d 0)) := by
  refine ⟨_, gradient_eq_of_answer hlevel hz.length_eq hg.gradient_eq hg.inSpace.isReal
    hg.inSpace.length_eq, ?_⟩
  rw [← Vec.ofCoords_coord_of_length hd.isReal hd.length_eq, Vec.dot,
    if_pos (by rw [Vec.length_ofCoords, Vec.length_ofCoords]), Vec.dotSum_ofCoords,
    Vec.ofCoords_coord_of_length hd.isReal hd.length_eq, dim, Finset.sum_range_add, logSlope_zero,
    Finset.mul_sum, sub_eq_add_neg, ← Finset.sum_neg_distrib, dotProduct]
  refine congrArg (fun s ↦ Except.ok (real s)) (congrArg₂ (· + ·) ?_ ?_)
  · rw [Finset.sum_range]
    exact Finset.sum_congr rfl fun i _ ↦ by rw [if_pos i.2]; rfl
  · exact Finset.sum_congr rfl fun k _ ↦ by
      rw [if_neg (Nat.not_lt.mpr (Nat.le_add_right _ _)), neg_mul]

/-- The scaled gradient predicts the slope of the value along a scaled step. -/
theorem hasDerivAt_valueAlong (hlevel : level.parameter = real μ) (hz : p.Interior z)
    (hd : Vec.InSpace p.dim d)
    (hg : p.objective.DifferentiableAt p.variableCount (z.take p.variableCount) g) :
    HasDerivAt (fun t ↦ answered (p.valueAlong level z d (real t)))
      (Vec.tuple p.variableCount g ⬝ᵥ Vec.tuple p.variableCount d - μ * p.logSlope d 0) 0 := by
  have hobjective := hg.hasDerivAt_line (Vec.tuple p.variableCount d)
  rw [tuple_take] at hobjective
  have hbarrier := ((hasDerivAt_logChange (eventually_keepsSlacks p d).self_of_nhds).const_add
    (∑ k ∈ Finset.range p.slackCount, Real.log (z.coord (p.variableCount + k)))).const_mul μ
  refine (hobjective.fun_sub hbarrier).congr_of_eventuallyEq ?_
  filter_upwards [eventually_valueAlong hlevel hz hd hg] with t ht
  rw [ht]
  rfl

/-! ## The second derivative -/

/-- The slack block of the scaled Hessian is a multiple of the identity if no multiplier of a slack
is positive. -/
theorem exists_hessian_slacks (hlevel : level.parameter = real μ) (hz : p.Interior z)
    (hd : Vec.InSpace p.dim d) (hv : Vec.InSpace p.constraintCount v)
    (hnonpos : ∀ k < p.slackCount, v.coord (p.equalityCount + k) ≤ 0)
    (hH : p.AnswersHessian z v H) :
    ∃ B u, p.hessian level z v = .ok B
      ∧ B.apply (Vec.zeros p.variableCount ++ d.drop p.variableCount) =
        .ok (Vec.zeros p.variableCount ++ u)
      ∧ Vec.dot (d.drop p.variableCount) u = .ok (real
        (μ * ∑ k ∈ Finset.range p.slackCount, d.coord (p.variableCount + k) ^ 2)) := by
  have hslacks : d.drop p.variableCount =
      Vec.ofCoords p.slackCount fun k ↦ d.coord (p.variableCount + k) :=
    Vec.drop_eq_ofCoords hd.isReal hd.length_eq
  have hweights : ∀ k < p.slackCount, p.slackWeights μ z v k = μ := by
    intro k hk
    rw [slackWeights, weight, if_neg (hnonpos k hk).not_gt]
  obtain ⟨y, hy, -, happly⟩ := actsBlockwise_hessianOperator hH.isReal hH.shape
    (p.slackWeights μ z v) _ (d.drop p.variableCount) (Vec.inSpace_zeros _)
    ⟨hd.isReal.drop _, length_slacks hd.length_eq⟩
  have hzero := Operator.apply_zeros hH.shape.wellFormed hH.isReal
  rw [hH.shape.rows_eq, hH.shape.cols_eq, hy, Except.ok.injEq] at hzero
  rw [hzero] at happly
  refine ⟨_, _, hessian_eq hlevel hz hv hH, happly, ?_⟩
  rw [hslacks, Vec.dot, if_pos (by rw [Vec.length_ofCoords, Vec.length_ofCoords]),
    Vec.dotSum_ofCoords, Finset.mul_sum]
  refine congrArg (fun s ↦ Except.ok (real s)) (Finset.sum_congr rfl fun k hk ↦ ?_)
  rw [Vec.coord_ofCoords (Finset.mem_range.mp hk), hweights k (Finset.mem_range.mp hk)]
  ring

theorem hasDerivAt_barrier (p : SlackForm Extended) (μ : ℝ) (d : Vec Extended) :
    (∀ᶠ t in 𝓝 0, HasDerivAt (fun t ↦ -μ * p.logChange d t) (-μ * p.logSlope d t) t)
      ∧ HasDerivAt (fun t ↦ -μ * p.logSlope d t)
        (μ * ∑ k ∈ Finset.range p.slackCount, d.coord (p.variableCount + k) ^ 2) 0 := by
  constructor
  · filter_upwards [eventually_keepsSlacks p d] with t ht
    exact (hasDerivAt_logChange ht).const_mul (-μ)
  · refine ((hasDerivAt_logSlope p d).const_mul (-μ)).congr_deriv ?_
    ring

/-! ## The whole -/

/-- **Value, gradient and Hessian belong to one function.** Let `z` be an interior iterate and `d` a
step. The value changes by the change of the objective less `μ ∑ ln (1 + d)`, whatever the slacks
are. If the objective is differentiable with the gradient that it answers, then the value is
differentiable along the scaled step, with the product of the scaled gradient and `d` as its
derivative. The second derivative of the barrier along the step is the quadratic form of the slack
block of the scaled Hessian, at all multipliers that are not positive for the slacks. -/
theorem value_along_scaled_step (hlevel : level.parameter = real μ) (hz : p.Interior z)
    (hd : Vec.InSpace p.dim d) :
    (∀ a b, (∀ k < p.slackCount, -1 < d.coord (p.variableCount + k)) →
      p.objective.value (z.take p.variableCount) = .ok (real a) →
      p.objective.value (List.zipWith (· + ·) (z.take p.variableCount)
        (d.take p.variableCount)) = .ok (real b) →
      ∃ D δ w A B, p.scaling z = .ok D ∧ D.apply d = .ok δ ∧ Vec.add z δ = .ok w
        ∧ p.value level z = .ok (real A) ∧ p.value level w = .ok (real B)
        ∧ B - A = b - a - μ * p.logChange d 1)
    ∧ (∀ g, p.objective.DifferentiableAt p.variableCount (z.take p.variableCount) g →
      ∃ γ m, p.gradient level z = .ok γ ∧ Vec.dot γ d = .ok (real m)
        ∧ (∀ᶠ t in 𝓝 0, ∃ r, p.valueAlong level z d (real t) = .ok (real r))
        ∧ HasDerivAt (fun t ↦ answered (p.valueAlong level z d (real t))) m 0)
    ∧ ∀ v H, Vec.InSpace p.constraintCount v →
      (∀ k < p.slackCount, v.coord (p.equalityCount + k) ≤ 0) → p.AnswersHessian z v H →
      ∃ B u c, p.hessian level z v = .ok B
        ∧ B.apply (Vec.zeros p.variableCount ++ d.drop p.variableCount) =
          .ok (Vec.zeros p.variableCount ++ u)
        ∧ Vec.dot (d.drop p.variableCount) u = .ok (real c)
        ∧ ∃ φ : ℝ → ℝ, (∀ᶠ t in 𝓝 0, HasDerivAt (fun t ↦ -μ * p.logChange d t) (φ t) t)
          ∧ HasDerivAt φ c 0 := by
  refine ⟨?_, ?_, ?_⟩
  · intro a b hkeeps ha hb
    exact exists_value_sub hlevel hz hd hkeeps ha hb
  · intro g hg
    obtain ⟨γ, hγ, hdot⟩ := exists_gradient_dot hlevel hz hd hg
    refine ⟨γ, _, hγ, hdot, ?_, hasDerivAt_valueAlong hlevel hz hd hg⟩
    filter_upwards [eventually_valueAlong hlevel hz hd hg] with t ht
    exact ⟨_, ht⟩
  · intro v H hv hnonpos hH
    obtain ⟨B, u, hB, hu, hdot⟩ := exists_hessian_slacks hlevel hz hd hv hnonpos hH
    exact ⟨B, u, _, hB, hu, hdot, _, hasDerivAt_barrier p μ d⟩

/-! ## Along the parabola -/

theorem value_parabola (u : Fin 1 → ℝ) : parabola.objective.value (Vec.ofTuple u) =
    .ok (real ((u 0 - 2) * (u 0 - 2))) := by
  change Except.ok (real ((u 0 + -2.0) * (u 0 + -2.0))) = _
  norm_num [sub_eq_add_neg]

theorem differentiableAt_parabola (a : ℝ) :
    parabola.objective.DifferentiableAt 1 [real a] [real (2 * (a - 2))] where
  gradient_eq := by
    change Except.ok [real (2.0 * (a + -2.0))] = _
    norm_num [sub_eq_add_neg]
  inSpace := ⟨by simp [Vec.isReal_cons], rfl⟩
  value_eq := .of_forall fun u ↦ ⟨_, value_parabola u⟩
  hasFDerivAt := by
    have hfirst : HasFDerivAt (fun u : Fin 1 → ℝ ↦ u 0 - 2)
        (ContinuousLinearMap.proj (R := ℝ) (φ := fun _ : Fin 1 ↦ ℝ) 0)
        (Vec.tuple 1 [real a]) := (hasFDerivAt_apply 0 _).sub_const 2
    have hvalue : (fun u : Fin 1 → ℝ ↦ answered (parabola.objective.value (Vec.ofTuple u))) =
        fun u ↦ (u 0 - 2) * (u 0 - 2) := by
      funext u
      rw [value_parabola, answered, toReal_real]
    rw [hvalue]
    refine ⟨_, hfirst.mul hfirst, fun u ↦ ?_⟩
    rw [dotProduct, Fin.sum_univ_one]
    change (a - 2) * u 0 + (a - 2) * u 0 = 2 * (a - 2) * u 0
    ring

/-- A step to the upper bound of the parabola, which doubles both slacks. -/
theorem parabola_along_scaled_step :
    (∃ D δ w A B, parabola.scaling [real 0.75, real 0.25, real 0.75] = .ok D
      ∧ D.apply [real 0.25, real 1, real 1] = .ok δ
      ∧ Vec.add [real 0.75, real 0.25, real 0.75] δ = .ok w
      ∧ parabola.value ⟨real 0.9375, 0⟩ [real 0.75, real 0.25, real 0.75] = .ok (real A)
      ∧ parabola.value ⟨real 0.9375, 0⟩ w = .ok (real B)
      ∧ B - A = -0.5625 - 1.875 * Real.log 2)
    ∧ HasDerivAt (fun t ↦ answered (parabola.valueAlong ⟨real 0.9375, 0⟩
        [real 0.75, real 0.25, real 0.75] [real 0.25, real 1, real 1] (real t))) (-2.5) 0
    ∧ ∃ B u, parabola.hessian ⟨real 0.9375, 0⟩ [real 0.75, real 0.25, real 0.75]
        [real (-1), real 0] = .ok B
      ∧ B.apply [real 0, real 1, real 1] = .ok (real 0 :: u)
      ∧ Vec.dot [real 1, real 1] u = .ok (real 1.875) := by
  have hlevel : (⟨real 0.9375, 0⟩ : Level Extended).parameter = real 0.9375 := rfl
  have hd : Vec.InSpace parabola.dim [real 0.25, real 1, real 1] :=
    ⟨by simp [Vec.isReal_cons], rfl⟩
  have hv : Vec.InSpace parabola.constraintCount [real (-1), real 0] :=
    ⟨by simp [Vec.isReal_cons], rfl⟩
  have hH : parabola.AnswersHessian [real 0.75, real 0.25, real 0.75] [real (-1), real 0]
      (.dense (DenseMatrix.ofRows 1 [[real 2.0]])) :=
    ⟨rfl, .dense (DenseMatrix.isReal_ofRows (by simp [Vec.isReal_cons])), .dense _, rfl, rfl⟩
  obtain ⟨hvalue, hgradient, hhessian⟩ := value_along_scaled_step hlevel interior_parabola hd
  refine ⟨?_, ?_, ?_⟩
  · have hkeeps : ∀ k < 2, -1 < Vec.coord [real 0.25, real 1, real 1] (1 + k) := by
      intro k hk
      interval_cases k <;> exact neg_one_lt_zero.trans one_pos
    obtain ⟨D, δ, w, A, B, hD, hδ, hw, hA, hB, hchange⟩ :=
      hvalue _ _ hkeeps (value_parabola ![0.75]) (value_parabola ![0.75 + 0.25])
    refine ⟨D, δ, w, A, B, hD, hδ, hw, hA, hB, hchange.trans ?_⟩
    change (0.75 + 0.25 - 2) * (0.75 + 0.25 - 2) - (0.75 - 2) * (0.75 - 2)
      - 0.9375 * ∑ k ∈ Finset.range 2, Real.log (1 + 1 * _) = (_ : ℝ)
    rw [Finset.sum_range_succ, Finset.sum_range_one]
    change (0.75 + 0.25 - 2) * (0.75 + 0.25 - 2) - (0.75 - 2) * (0.75 - 2)
      - 0.9375 * (Real.log (1 + 1 * 1) + Real.log (1 + 1 * 1)) = _
    norm_num
    ring
  · obtain ⟨γ, m, hγ, hdot, -, hderiv⟩ := hgradient _ (differentiableAt_parabola 0.75)
    have hslope : Except.ok [real (2.0 * (0.75 + -2.0)), real (-0.9375), real (-0.9375)] =
        (.ok γ : Except Fault (Vec Extended)) := hγ
    cases hslope
    have hproduct : Except.ok (real (0 + 2.0 * (0.75 + -2.0) * 0.25 + -0.9375 * 1 + -0.9375 * 1)) =
        (.ok (real m) : Except Fault Extended) := hdot
    rw [Except.ok.injEq, real_inj] at hproduct
    refine hderiv.congr_deriv (hproduct.symm.trans ?_)
    norm_num
  · obtain ⟨B, u, c, hB, hu, hdot, φ, hφ, hc⟩ := hhessian _ _ hv (by
      intro k hk
      have hk : k < 2 := hk
      interval_cases k
      · exact neg_one_lt_zero.le
      · exact le_rfl) hH
    -- The second derivative is unique, so it is the one that is computed by the rules.
    obtain ⟨hfirst, hsecond⟩ := hasDerivAt_barrier parabola 0.9375 [real 0.25, real 1, real 1]
    have hsame : φ =ᶠ[𝓝 0] fun t ↦ -0.9375 * parabola.logSlope [real 0.25, real 1, real 1] t := by
      filter_upwards [hφ, hfirst] with t h₁ h₂
      exact h₁.unique h₂
    rw [hc.unique (hsecond.congr_of_eventuallyEq hsame)] at hdot
    refine ⟨B, u, hB, hu, hdot.trans (congrArg (fun r ↦ Except.ok (real r)) ?_)⟩
    change 0.9375 * ∑ k ∈ Finset.range 2, _ ^ 2 = (1.875 : ℝ)
    rw [Finset.sum_range_succ, Finset.sum_range_one]
    change 0.9375 * ((1 : ℝ) ^ 2 + 1 ^ 2) = 1.875
    norm_num

end SlackForm

end LogBarrier
