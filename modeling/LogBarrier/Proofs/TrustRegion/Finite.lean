import LogBarrier.Proofs.TrustRegion.Radius

/-!
# Infinite and missing values in a search

The functions of a problem may be infinite or may not be numbers in a part of the space. A search
never takes a step into this part, and it takes no step from there either.

## The one test

Only the quotient of the actual and the predicted reduction is tested. That is enough, since an
operation that meets an infinity or something that is not a number never gives a finite number, with
one exception: a finite number divided by an infinity is zero. The quotient is read through its
numerator, so the exception does no harm. The predicted reduction may well be infinite.

## Scalars

The rules are those of binary floating point. They leave open how results are rounded and when they
overflow, and they say nothing about the result of an operation on finite numbers.
-/

namespace LogBarrier

open Scalar

/-! ## Rules for values that are not finite -/

/-- What is used of the arithmetic of binary floating point: a finite result comes from finite
arguments, and no finite number is below negative infinity. -/
structure Scalar.IeeeRules (α : Type) [Scalar α] : Prop where
  add : ∀ a b : α, isFinite (a + b) = true → isFinite a = true ∧ isFinite b = true
  sub : ∀ a b : α, isFinite (a - b) = true → isFinite a = true ∧ isFinite b = true
  mul : ∀ a b : α, isFinite (a * b) = true → isFinite a = true ∧ isFinite b = true
  div : ∀ a b : α, isFinite (a / b) = true → isFinite a = true
  sqrt : ∀ a : α, isFinite (sqrt a) = true → isFinite a = true
  not_le_neg_infinity : ∀ a : α, isFinite a = true → ¬a ≤ -infinity

namespace Extended

theorem isReal_of_add {a b : Extended} (h : (a + b).IsReal) : a.IsReal ∧ b.IsReal := by
  obtain ⟨z, hz⟩ := h
  change Extended.add a b = real z at hz
  cases a with
  | real x =>
    cases b with
    | real y => exact ⟨isReal_real x, isReal_real y⟩
    | _ => cases hz
  | _ => cases b <;> cases hz

theorem isReal_of_neg {a : Extended} (h : (-a).IsReal) : a.IsReal := by
  obtain ⟨z, hz⟩ := h
  change Extended.neg a = real z at hz
  cases a with
  | real x => exact isReal_real x
  | _ => cases hz

theorem infinityTimes_ne_real (x z : ℝ) : infinityTimes x ≠ real z := by
  rw [infinityTimes]
  split_ifs
  all_goals
    intro h
    cases h

theorem isReal_of_mul {a b : Extended} (h : (a * b).IsReal) : a.IsReal ∧ b.IsReal := by
  obtain ⟨z, hz⟩ := h
  change Extended.mul a b = real z at hz
  by_cases ha : a.IsReal
  · obtain ⟨x, rfl⟩ := ha
    cases b with
    | real y => exact ⟨isReal_real x, isReal_real y⟩
    | nan => cases hz
    | _ => exact (infinityTimes_ne_real _ _ hz).elim
  · cases a with
    | real x => exact (ha (isReal_real x)).elim
    | nan => cases hz
    | _ => cases b with
      | real y => exact (infinityTimes_ne_real _ _ hz).elim
      | _ => cases hz

theorem isReal_of_div {a b : Extended} (h : (a / b).IsReal) : a.IsReal := by
  obtain ⟨z, hz⟩ := h
  change Extended.div a b = real z at hz
  cases a with
  | real x => exact isReal_real x
  | nan => cases hz
  | _ =>
    cases b with
    | real y =>
      rw [Extended.div] at hz
      split at hz <;> cases hz
    | _ => cases hz

theorem isReal_of_div_eq {a b : Extended} {r : ℝ} (h : a / b = real r) (hr : r ≠ 0) :
    b.IsReal := by
  change Extended.div a b = real r at h
  cases b with
  | real y => exact isReal_real y
  | nan => cases a <;> cases h
  | _ =>
    cases a with
    | real x => exact absurd (real_inj.mp h).symm hr
    | _ => cases h

theorem isReal_of_sqrt {a : Extended} (h : (Scalar.sqrt a).IsReal) : a.IsReal := by
  obtain ⟨z, hz⟩ := h
  change Extended.sqrt a = real z at hz
  cases a with
  | real x => exact isReal_real x
  | _ => cases hz

/-- Exact arithmetic with infinities follows the rules. -/
theorem ieeeRules : IeeeRules Extended where
  add a b h := by
    rw [isFinite_iff] at h ⊢
    rw [isFinite_iff]
    exact isReal_of_add h
  sub a b h := by
    rw [isFinite_iff] at h ⊢
    rw [isFinite_iff]
    obtain ⟨ha, hb⟩ := isReal_of_add (b := -b) h
    exact ⟨ha, isReal_of_neg hb⟩
  mul a b h := by
    rw [isFinite_iff] at h ⊢
    rw [isFinite_iff]
    exact isReal_of_mul h
  div a b h := by
    rw [isFinite_iff] at h ⊢
    exact isReal_of_div h
  sqrt a h := by
    rw [isFinite_iff] at h ⊢
    exact isReal_of_sqrt h
  not_le_neg_infinity a h hle := by
    obtain ⟨x, rfl⟩ := isFinite_iff.mp h
    exact hle

end Extended

variable {α : Type} [Scalar α]

namespace Vec

variable {x y : Vec α}

theorem isFinite_of_foldl (rules : IeeeRules α) {a : α}
    (h : isFinite (x.foldl (· + ·) a) = true) :
    isFinite a = true ∧ ∀ b ∈ x, isFinite b = true := by
  induction x generalizing a with
  | nil => exact ⟨h, nofun⟩
  | cons b x ih =>
    obtain ⟨hsum, hx⟩ := ih h
    obtain ⟨ha, hb⟩ := rules.add a b hsum
    exact ⟨ha, List.forall_mem_cons.mpr ⟨hb, hx⟩⟩

theorem isFinite_of_norm (rules : IeeeRules α) (h : isFinite (norm x) = true) :
    ∀ a ∈ x, isFinite a = true := by
  intro a ha
  have hsum := (isFinite_of_foldl rules (rules.sqrt _ h)).2
  rw [List.zipWith_self] at hsum
  exact (rules.mul a a (hsum _ (List.mem_map_of_mem ha))).1

theorem isFinite_of_dot (rules : IeeeRules α) {a : α} (h : dot x y = .ok a)
    (ha : isFinite a = true) : ∀ b ∈ y, isFinite b = true := by
  intro b hb
  by_cases hlength : x.length = y.length
  · rw [dot, if_pos hlength] at h
    obtain rfl := Except.ok.inj h
    obtain ⟨i, hi, rfl⟩ := List.mem_iff_getElem.mp hb
    have hmem : x[i] * y[i] ∈ List.zipWith (· * ·) x y :=
      List.mem_iff_getElem.mpr ⟨i, by simp [hlength, hi], List.getElem_zipWith⟩
    exact (rules.mul _ _ ((isFinite_of_foldl rules ha).2 _ hmem)).2
  · rw [dot, if_neg hlength] at h
    cases h

end Vec

/-! ## Accepted trials -/

/-- The objective and all constraints are finite at the iterate. -/
def InnerProblem.FiniteAt (problem : InnerProblem α) (z : Vec α) : Prop :=
  ∃ objective residual, problem.objective z = .ok objective
    ∧ problem.constraints z = .ok residual ∧ isFinite objective = true
    ∧ ∀ a ∈ residual, isFinite a = true

/-- A finite merit is that of an iterate at which everything is finite, whatever the penalty is. -/
theorem InnerProblem.finiteAt_of_merit {problem : InnerProblem α} {z residual : Vec α}
    {objective penalty : α} (rules : IeeeRules α) (hobjective : problem.objective z = .ok objective)
    (hresidual : problem.constraints z = .ok residual)
    (h : isFinite (objective + penalty * Vec.norm residual) = true) : problem.FiniteAt z := by
  obtain ⟨hfinite, hproduct⟩ := rules.add _ _ h
  exact ⟨objective, residual, hobjective, hresidual, hfinite,
    Vec.isFinite_of_norm rules (rules.mul _ _ hproduct).2⟩

namespace Trial

variable {options : TrustRegionOptions α} {trial : Trial α}

/-- A ratio that is not finite counts as minus infinity, and so it never suffices. -/
theorem isFinite_quotient_of_accepted (rules : IeeeRules α)
    (hratio : isFinite options.acceptableRatio = true) (h : trial.isAccepted options = true) :
    isFinite trial.quotient = true := by
  rw [isAccepted_iff, ratio] at h
  by_contra hnot
  rw [if_neg hnot] at h
  exact rules.not_le_neg_infinity _ hratio h

theorem isFinite_actual_of_accepted (rules : IeeeRules α)
    (hratio : isFinite options.acceptableRatio = true) (h : trial.isAccepted options = true) :
    isFinite trial.actual = true :=
  rules.div _ _ (isFinite_quotient_of_accepted rules hratio h)

end Trial

namespace TrustRegion

variable {problem : InnerProblem α} {options : TrustRegionOptions α} {bounds : StepBox α}
  {z v : Vec α} {radius penalty : α} {s s₀ : State α} {trial : Trial α} {trials : List (Trial α)}

/-- An accepted trial leads from an iterate where everything is finite to another one. -/
theorem finiteAt_of_accepted (rules : IeeeRules α)
    (hratio : isFinite options.acceptableRatio = true) (hfresh : s.point.Fresh problem v)
    (proposed : attempt problem options bounds s = .ok trial)
    (taken : trial.isAccepted options = true) :
    problem.FiniteAt trial.next ∧ problem.FiniteAt s.point.iterate := by
  have hactual := Trial.isFinite_actual_of_accepted rules hratio taken
  rw [(judged_of_attempt proposed).actual] at hactual
  obtain ⟨hmerit, hnext⟩ := rules.sub _ _ hactual
  have hevaluated := evaluated_of_attempt proposed
  exact ⟨problem.finiteAt_of_merit rules hevaluated.objective hevaluated.residual hnext,
    problem.finiteAt_of_merit rules hfresh.objective hfresh.residual hmerit⟩

/-! ## Whole searches -/

theorem Path.eq_or_finiteAt (rules : IeeeRules α)
    (hratio : isFinite options.acceptableRatio = true) (h₀ : s₀.point.Fresh problem v)
    (path : Path problem options bounds s₀ trials s) :
    s.point.iterate = s₀.point.iterate
      ∨ problem.FiniteAt s₀.point.iterate ∧ problem.FiniteAt s.point.iterate := by
  induction path with
  | start => exact .inl rfl
  | rejected _ _ _ _ ih => exact ih
  | accepted path _ proposed taken arrived ih =>
    obtain ⟨hnext, hiterate⟩ :=
      finiteAt_of_accepted rules hratio (path.fresh h₀) proposed taken
    rw [Point.iterate_of_complete (moved_eq_ok arrived).1]
    refine .inr ⟨?_, hnext⟩
    obtain heq | ⟨hfirst, -⟩ := ih
    · exact heq ▸ hiterate
    · exact hfirst

theorem Path.finiteAt_of_accepted (rules : IeeeRules α)
    (hratio : isFinite options.acceptableRatio = true) (h₀ : s₀.point.Fresh problem v)
    (path : Path problem options bounds s₀ trials s)
    (proposed : attempt problem options bounds s = .ok trial)
    (taken : trial.isAccepted options = true) : problem.FiniteAt s₀.point.iterate := by
  obtain heq | ⟨hfirst, -⟩ := path.eq_or_finiteAt rules hratio h₀
  · rw [← heq]
    exact (TrustRegion.finiteAt_of_accepted rules hratio (path.fresh h₀) proposed taken).2
  · exact hfirst

theorem Conclusion.eq_or_finiteAt {w : Vec α} {outcome : Except (Failure SolverError) (Report α)}
    (rules : IeeeRules α) (hratio : isFinite options.acceptableRatio = true)
    (h₀ : s₀.point.Fresh problem v) (h : Conclusion problem options bounds s₀ outcome w) :
    w = s₀.point.iterate ∨ problem.FiniteAt s₀.point.iterate ∧ problem.FiniteAt w := by
  cases h with
  | stopped path _ => exact path.eq_or_finiteAt rules hratio h₀
  | unfinished path => exact path.eq_or_finiteAt rules hratio h₀
  | attemptFault path _ _ => exact path.eq_or_finiteAt rules hratio h₀
  | moveFailure path _ proposed taken _ =>
    -- The iterate has moved although the point there could not be completed.
    exact .inr ⟨path.finiteAt_of_accepted rules hratio h₀ proposed taken,
      (finiteAt_of_accepted rules hratio (path.fresh h₀) proposed taken).1⟩

theorem solve_eq_or_finiteAt (rules : IeeeRules α)
    (hratio : isFinite options.acceptableRatio = true) (limit : ℕ) :
    (solve problem options bounds z v radius penalty limit).2.iterate = z
      ∨ problem.FiniteAt z
        ∧ problem.FiniteAt (solve problem options bounds z v radius penalty limit).2.iterate := by
  obtain ⟨-, hz⟩ | ⟨failure, -, -, hz⟩ | ⟨s₀, hs₀, hconclusion⟩ :=
    solve_concludes problem options bounds z v radius penalty limit
  · exact .inl hz
  · exact .inl hz
  · obtain ⟨hz, hfresh, -⟩ := start_eq_ok hs₀
    have hends := hconclusion.eq_or_finiteAt rules hratio hfresh
    rwa [hz] at hends

/-- **Finite steps only.** Whenever a search accepts a trial, the objective and all constraints are
finite where the trial ends and where it started. So the iterate that a solve leaves is the first
one or a finite one, whatever the outcome is, and a solve that starts where something is not finite
accepts nothing and leaves its first iterate. -/
theorem accepts_only_finite (rules : IeeeRules α)
    (hratio : isFinite options.acceptableRatio = true) :
    (∀ s trial, Tries problem options bounds z v radius penalty s trial →
      trial.isAccepted options = true →
        problem.FiniteAt trial.next ∧ problem.FiniteAt s.point.iterate)
    ∧ (∀ limit, (solve problem options bounds z v radius penalty limit).2.iterate = z
      ∨ problem.FiniteAt (solve problem options bounds z v radius penalty limit).2.iterate)
    ∧ (¬problem.FiniteAt z →
      (∀ s trial, Tries problem options bounds z v radius penalty s trial →
        trial.isAccepted options = false)
      ∧ ∀ limit, (solve problem options bounds z v radius penalty limit).2.iterate = z) := by
  have htries : ∀ s trial, Tries problem options bounds z v radius penalty s trial →
      trial.isAccepted options = true →
        problem.FiniteAt z ∧ problem.FiniteAt trial.next ∧ problem.FiniteAt s.point.iterate := by
    intro s trial htry taken
    obtain ⟨s₀, trials, hs₀, path, -, proposed⟩ := tries_iff.mp htry
    obtain ⟨hz, hfresh, -⟩ := start_eq_ok hs₀
    have hfinite := finiteAt_of_accepted rules hratio (path.fresh hfresh) proposed taken
    refine ⟨?_, hfinite⟩
    obtain heq | ⟨hfirst, -⟩ := path.eq_or_finiteAt rules hratio hfresh
    · rw [← hz, ← heq]
      exact hfinite.2
    · rw [← hz]
      exact hfirst
  refine ⟨fun s trial htry taken ↦ (htries s trial htry taken).2, fun limit ↦ ?_,
    fun hz ↦ ⟨fun s trial htry ↦ ?_, fun limit ↦ ?_⟩⟩
  · exact (solve_eq_or_finiteAt rules hratio limit).imp_right And.right
  · by_contra htaken
    rw [Bool.not_eq_false] at htaken
    exact hz (htries s trial htry htaken).1
  · exact (solve_eq_or_finiteAt rules hratio limit).resolve_right fun h ↦ hz h.1

/-! ## A descent that is undefined on half of the line -/

noncomputable def descent : InnerProblem Extended where
  dim := 1
  constraintCount := 0
  objective z := Vec.entry z 0
  gradient _ := .ok [1]
  constraints _ := .ok []
  jacobian _ := .ok (.dense (DenseMatrix.zeros 0 1))
  hessian _ _ := .ok (.dense (DenseMatrix.zeros 1 1))
  scaling _ := .ok (.identity 1)
  stop _ := false

theorem realValued_descent : descent.RealValued where
  gradient := by
    rintro z g - ⟨⟩
    exact Vec.IsReal.replicate Extended.isReal_one 1
  constraints := by
    rintro z c - ⟨⟩
    exact Vec.isReal_nil
  jacobian := by
    rintro z op - ⟨⟩
    exact .dense (DenseMatrix.isReal_zeros 0 1)
  hessian := by
    rintro z v op - - ⟨⟩
    exact .dense (DenseMatrix.isReal_zeros 1 1)
  scaling := by
    rintro z op - ⟨⟩
    exact .diagonal (Vec.IsReal.replicate Extended.isReal_one 1)

theorem shaped_descent : descent.Shaped fun _ ↦ False where
  pivots := .inl Projector.detectsZero
  objective _ hz := Vec.ensures_entry (hz.symm ▸ Nat.one_pos)
  gradient _ _ := Ensures.ok rfl
  constraints _ _ := Ensures.ok rfl
  jacobian _ _ := Ensures.ok ⟨.dense _, rfl, rfl⟩
  hessian _ _ _ _ := Ensures.ok ⟨.dense _, rfl, rfl⟩
  scaling _ _ := Ensures.ok ⟨.diagonal _, rfl, rfl⟩

/-- The descent whose objective is the square root, which is not a number for negative iterates. -/
noncomputable def rootDescent : InnerProblem Extended :=
  { descent with objective := fun z ↦ Scalar.sqrt <$> Vec.entry z 0 }

theorem not_finiteAt_rootDescent : ¬rootDescent.FiniteAt [Extended.real (-1)] := by
  rintro ⟨objective, residual, hobjective, -, hfinite, -⟩
  have hnan : rootDescent.objective [Extended.real (-1)] = .ok Extended.nan :=
    congrArg Except.ok (if_pos (by norm_num))
  rw [hnan] at hobjective
  cases hobjective
  exact Bool.false_ne_true hfinite

/-- From a negative iterate no step is taken, not even one to the numbers with a root. -/
theorem rootDescent_stays :
    IeeeRules Extended ∧ isFinite ({} : TrustRegionOptions Extended).acceptableRatio = true
    ∧ ∀ radius penalty limit, (solve rootDescent {} (.unbounded 1) [Extended.real (-1)] [] radius
      penalty limit).2.iterate = [Extended.real (-1)] := by
  refine ⟨Extended.ieeeRules, rfl, fun radius penalty ↦ ?_⟩
  exact ((accepts_only_finite Extended.ieeeRules rfl).2.2 not_finiteAt_rootDescent).2

end TrustRegion

end LogBarrier
