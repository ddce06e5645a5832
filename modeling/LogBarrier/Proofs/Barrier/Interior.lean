import LogBarrier.Barrier.SlackForm
import LogBarrier.Proofs.TrustRegion.Reals

/-!
# Interior iterates

A combined iterate is interior if it consists of real numbers and all of its slacks are positive. At
interior iterates the barrier subproblem answers with real numbers, and none of its functions
complains about a slack. The functions of the user are asked for no more than real numbers.
-/

namespace LogBarrier

open Extended

/-! ## Problems over the real numbers -/

/-- Real points are answered with real numbers. A user's function may fault in its own ways, but it
does not speak about slacks. -/
structure Objective.RealValued (objective : Objective Extended) : Prop where
  value : ∀ x, Vec.IsReal x → Yields Extended.IsReal (objective.value x)
  gradient : ∀ x, Vec.IsReal x → Yields Vec.IsReal (objective.gradient x)
  hessian : ∀ x v w, Vec.IsReal x → Vec.IsReal v → Vec.IsReal w →
    Yields Operator.IsReal (objective.hessian x v w)

structure Constraints.RealValued (constraints : Constraints Extended) : Prop where
  value : ∀ x, Vec.IsReal x → Yields Vec.IsReal (constraints.value x)
  jacobian : ∀ x, Vec.IsReal x → Yields Operator.IsReal (constraints.jacobian x)

theorem Constraints.realValued_none : (Constraints.none : Constraints Extended).RealValued where
  value _ _ := Ensures.ok Vec.isReal_nil
  jacobian _ _ := Ensures.ok (.dense (DenseMatrix.isReal_zeros _ _))

structure AffineSystem.IsReal (system : AffineSystem Extended) : Prop where
  matrix : system.matrix.IsReal
  offset : Vec.IsReal system.offset

theorem AffineSystem.yields_residual {system : AffineSystem Extended} (h : system.IsReal)
    {x : Vec Extended} (hx : Vec.IsReal x) : Yields Vec.IsReal (system.residual x) :=
  (DenseMatrix.yields_mulVec h.matrix hx).bind fun _ hy ↦ Vec.yields_add hy h.offset

theorem check_eq_ok {component : Component} {expected actual : ℕ}
    (h : Inconsistency.check component expected actual = .ok ()) : expected = actual := by
  rw [Inconsistency.check] at h
  split_ifs at h with heq
  exact heq

namespace SlackForm

/-- All data of the problem consist of real numbers. The bounds of the variables may be infinite. -/
structure RealValued (p : SlackForm Extended) : Prop where
  objective : p.objective.RealValued
  inequality : p.inequality.RealValued
  equality : p.equality.RealValued
  affineInequality : p.affineInequality.IsReal
  affineEquality : p.affineEquality.IsReal
  initial : Vec.IsReal p.initial

/-- A combined iterate of real numbers with positive slacks. -/
structure Interior (p : SlackForm Extended) (z : Vec Extended) : Prop where
  isReal : Vec.IsReal z
  length_eq : z.length = p.dim
  positive : ∀ a ∈ z.drop p.variableCount, 0 < a

section Parts

variable {α : Type} [Scalar α] {p : SlackForm α} {z : Vec α}

theorem length_variables (h : z.length = p.dim) :
    (z.take p.variableCount).length = p.variableCount := by
  rw [List.length_take, h, dim, Nat.min_eq_left (Nat.le_add_right _ _)]

theorem length_slacks (h : z.length = p.dim) : (z.drop p.variableCount).length = p.slackCount := by
  rw [List.length_drop, h, dim, Nat.add_sub_cancel_left]

end Parts

variable {p : SlackForm Extended} {level : Level Extended} {z v x : Vec Extended}

theorem requirePositive_eq_ok_iff {s : Vec Extended} :
    requirePositive s = .ok () ↔ ∀ a ∈ s, 0 < a := by
  rw [requirePositive, Fault.require]
  split
  next h => exact iff_of_true rfl fun a ha ↦ of_decide_eq_true (List.all_eq_true.mp h a ha)
  next h =>
    refine iff_of_false (by simp) fun hs ↦ h (List.all_eq_true.mpr fun a ha ↦ ?_)
    exact decide_eq_true (hs a ha)

theorem yields_split (hz : Vec.IsReal z) :
    Yields (fun r ↦ Vec.IsReal r.1 ∧ Vec.IsReal r.2 ∧ r.2 = z.drop p.variableCount)
      (p.split z) := by
  rw [split]
  split_ifs
  · exact Ensures.ok ⟨hz.take _, hz.drop _, rfl⟩
  · exact Ensures.error (by decide)

/-! ## Functions that read no slack -/

theorem isReal_of_mem_restrictedIndices {bounds : Vec Extended} {i : ℕ}
    (h : i ∈ Box.restrictedIndices bounds) : (bounds.getD i 0).IsReal :=
  isFinite_iff.mp (List.mem_filter.mp h).2

theorem isReal_upperResidual (hx : Vec.IsReal x) : Vec.IsReal (p.upperResidual x) := by
  intro a ha
  obtain ⟨i, hi, rfl⟩ := List.mem_map.mp ha
  exact (hx.getD i).sub (isReal_of_mem_restrictedIndices hi)

theorem isReal_lowerResidual (hx : Vec.IsReal x) : Vec.IsReal (p.lowerResidual x) := by
  intro a ha
  obtain ⟨i, hi, rfl⟩ := List.mem_map.mp ha
  exact (isReal_of_mem_restrictedIndices hi).sub (hx.getD i)

theorem yields_rowValues (hp : p.RealValued) (hx : Vec.IsReal x) :
    Yields (fun r ↦ Vec.IsReal r.1 ∧ Vec.IsReal r.2) (p.rowValues x) := by
  refine (hp.equality.value x hx).bind fun equality hequality ↦
    (AffineSystem.yields_residual hp.affineEquality hx).bind fun affineEquality haffineEquality ↦
      (hp.inequality.value x hx).bind fun inequality hinequality ↦
        (AffineSystem.yields_residual hp.affineInequality hx).bind
          fun affineInequality haffineInequality ↦ Ensures.pure ?_
  simp only [Vec.isReal_append]
  exact ⟨⟨hequality, haffineEquality⟩, ⟨⟨hinequality, haffineInequality⟩,
    isReal_upperResidual hx⟩, isReal_lowerResidual hx⟩

theorem yields_constraints (hp : p.RealValued) (hz : Vec.IsReal z) :
    Yields Vec.IsReal (p.constraints z) := by
  refine (yields_split hz).bind fun ⟨x, s⟩ ⟨hx, hs, _⟩ ↦
    (yields_rowValues hp hx).bind fun ⟨equalities, slacked⟩ ⟨hequalities, hslacked⟩ ↦ ?_
  refine (Vec.yields_takeExactly ?_ _).mono fun _ h ↦ h.1
  exact Vec.isReal_append.mpr ⟨hequalities, hslacked.zipWith hs fun _ _ ha hb ↦ ha.add hb⟩

theorem yields_scaling (hz : Vec.IsReal z) : Yields Operator.IsReal (p.scaling z) :=
  (yields_split hz).bind fun ⟨_, _⟩ ⟨_, hs, _⟩ ↦ Ensures.pure
    (.diagonal (Vec.isReal_append.mpr ⟨Vec.IsReal.replicate isReal_one _, hs⟩))

theorem yields_gradient (hp : p.RealValued) (hlevel : level.parameter.IsReal) (hz : Vec.IsReal z) :
    Yields Vec.IsReal (p.gradient level z) := by
  refine (yields_split hz).bind fun ⟨x, s⟩ ⟨hx, _, _⟩ ↦
    (hp.objective.gradient x hx).bind fun gradient hgradient ↦ ?_
  refine (Vec.yields_takeExactly ?_ _).mono fun _ h ↦ h.1
  exact Vec.isReal_append.mpr ⟨hgradient, Vec.IsReal.replicate hlevel.neg _⟩

theorem yields_inequalityRows (hp : p.RealValued) (hx : Vec.IsReal x) :
    Yields Operator.IsReal (p.inequalityRows x) := by
  refine (hp.inequality.jacobian x hx).bind fun nonlinear hnonlinear ↦
    (Operator.yields_select isReal_one _ _).bind fun upper hupper ↦
      (Operator.yields_select isReal_one.neg _ _).bind fun lower hlower ↦
        (Grid.yields_stack (fun op hop ↦ ?_) _).bind fun grid hgrid ↦ Ensures.pure hgrid.toOperator
  simp only [List.mem_cons, List.not_mem_nil, or_false] at hop
  rcases hop with rfl | rfl | rfl | rfl
  · exact hnonlinear
  · exact .dense hp.affineInequality.matrix
  · exact hupper
  · exact hlower

theorem yields_jacobian (hp : p.RealValued) (hz : Vec.IsReal z) :
    Yields Operator.IsReal (p.jacobian z) := by
  refine (yields_split hz).bind fun ⟨x, s⟩ ⟨hx, hs, _⟩ ↦
    (yields_inequalityRows hp hx).bind fun rows hrows ↦
      (hp.equality.jacobian x hx).bind fun equality hequality ↦ ?_
  exact (Grid.yields_place (Grid.isReal_zeros _ _) hequality 0 0).bind fun _ h₁ ↦
    (Grid.yields_place h₁ (.dense hp.affineEquality.matrix) 1 0).bind fun _ h₂ ↦
      (Grid.yields_place h₂ hrows 2 0).bind fun _ h₃ ↦
        (Grid.yields_place h₃ (.diagonal hs) 2 1).bind fun _ h₄ ↦ Ensures.pure h₄.toOperator

/-! ## Functions that read the slacks -/

theorem isReal_slackCurvature {parameter s v : Extended} (hparameter : parameter.IsReal)
    (hs : s.IsReal) (hpositive : 0 < s) (hv : v.IsReal) :
    (slackCurvature parameter s v).IsReal := by
  obtain ⟨s, rfl⟩ := hs
  have hs0 : s ≠ 0 := (real_lt.mp hpositive).ne'
  rw [slackCurvature]
  split
  · exact hv.div (isReal_real s) hs0
  · exact hparameter.div (isReal_real (s * s)) (mul_ne_zero hs0 hs0)

theorem yields_value (hp : p.RealValued) (hz : p.Interior z) :
    Yields (fun _ ↦ True) (p.value level z) := by
  refine (yields_split hz.isReal).bind fun ⟨x, s⟩ ⟨hx, _, hs⟩ ↦ ?_
  have hpositive : requirePositive s = .ok () :=
    requirePositive_eq_ok_iff.mpr fun a ha ↦ hz.positive a (hs ▸ ha)
  dsimp only
  rw [hpositive]
  exact (hp.objective.value x hx).bind fun _ _ ↦ Ensures.pure trivial

theorem yields_variableHessian (hp : p.RealValued) (hz : Vec.IsReal z) (hv : Vec.IsReal v) :
    Yields Operator.IsReal (p.variableHessian z v) := by
  refine yields_require (by decide) fun _ ↦ (yields_split hz).bind fun ⟨x, _⟩ ⟨hx, _, _⟩ ↦
    (Vec.yields_slice hv _ _).bind fun equality hequality ↦
      (Vec.yields_slice hv _ _).bind fun inequality hinequality ↦ ?_
  exact hp.objective.hessian x equality inequality hx hequality hinequality

theorem yields_slackHessian (hlevel : level.parameter.IsReal) (hz : p.Interior z)
    (hv : Vec.IsReal v) : Yields Vec.IsReal (p.slackHessian level z v) := by
  refine yields_require (by decide) fun _ ↦ (yields_split hz.isReal).bind
    fun ⟨_, s⟩ ⟨_, hs, hdrop⟩ ↦ ?_
  have hpositive : ∀ a ∈ s, 0 < a := fun a ha ↦ hz.positive a (hdrop ▸ ha)
  have hrequire : requirePositive s = .ok () := requirePositive_eq_ok_iff.mpr hpositive
  dsimp only
  rw [hrequire]
  refine (Vec.yields_slice hv _ _).bind fun multipliers hmultipliers ↦ Ensures.pure ?_
  exact forall_mem_zipWith fun a ha b hb ↦
    isReal_slackCurvature hlevel (hs a ha) (hpositive a ha) (hmultipliers b hb)

theorem yields_hessian (hp : p.RealValued) (hlevel : level.parameter.IsReal) (hz : p.Interior z)
    (hv : Vec.IsReal v) : Yields Operator.IsReal (p.hessian level z v) := by
  refine (yields_split hz.isReal).bind fun ⟨_, s⟩ ⟨_, hs, _⟩ ↦
    (yields_variableHessian hp hz.isReal hv).bind fun ofVariables hvariables ↦
      (yields_slackHessian hlevel hz hv).bind fun ofSlacks hslacks ↦
        (Vec.yields_mul hslacks hs).bind fun once honce ↦
          (Vec.yields_mul honce hs).bind fun scaled hscaled ↦
            (Grid.yields_blockDiagonal fun op hop ↦ ?_).bind fun _ hgrid ↦
              Ensures.pure hgrid.toOperator
  simp only [List.mem_cons, List.not_mem_nil, or_false] at hop
  rcases hop with rfl | rfl
  · exact hvariables
  · exact .diagonal hscaled

end SlackForm

end LogBarrier
