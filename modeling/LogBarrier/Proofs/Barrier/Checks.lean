import LogBarrier.Proofs.Shape.Subproblem

/-!
# What the checks accept

The parts of a problem are checked where it starts, and the checks call the functions of the user to
learn the sizes of what they answer. A function that always answers in one size is judged correctly
by a single call:

```text
check succeeds  ↔  the sizes are the declared ones        no check faults
```

The functions are only called at a point that has an entry for each variable, since that is the
first thing that is checked. So nothing is assumed of what they do anywhere else.

## Conditions of a computation

A sequence of checks succeeds exactly if the conditions of all of them hold, where a later check may
rely on the conditions of the earlier ones. The sizes come from calls in between, so a condition is
carried along with the property of the value that was computed, and not read off the result at the
end.
-/

namespace LogBarrier

variable {β γ : Type} {P R : Prop} {Q : β → Prop} {S : γ → Prop}

/-- The computation gives a value with the property if the condition holds. Otherwise it reports an
inconsistency. It never ends in a fault. -/
def Validates (P : Prop) (Q : β → Prop) (e : Except (Failure Inconsistency) β) : Prop :=
  (P ∧ ∃ b, e = .ok b ∧ Q b) ∨ (¬P ∧ ∃ cause, e = .error (.error cause))

namespace Validates

variable {e : Except (Failure Inconsistency) β} {f : β → Except (Failure Inconsistency) γ}

theorem ok {b : β} (h : Q b) : Validates True Q (.ok b) := .inl ⟨trivial, b, rfl, h⟩

theorem congr (he : Validates P Q e) (h : P ↔ R) : Validates R Q e := by
  rwa [Validates, ← h]

/-- The rule for a sequence. The second part may rely on the condition of the first one. -/
theorem bind (he : Validates P Q e) (hf : ∀ b, P → Q b → Validates R S (f b)) :
    Validates (P ∧ R) S (e >>= f) := by
  obtain ⟨hP, b, rfl, hb⟩ | ⟨hnot, cause, rfl⟩ := he
  · exact (hf b hP hb).congr (and_iff_right hP).symm
  · exact .inr ⟨fun h ↦ hnot h.1, cause, rfl⟩

/-- The rule for a sequence whose second part has nothing left to check. -/
theorem map {g : β → γ} (he : Validates P Q e) (hg : ∀ b, Q b → S (g b)) :
    Validates P S (e >>= fun b ↦ .ok (g b)) :=
  (he.bind fun b _ hb ↦ ok (hg b hb)).congr (and_iff_left trivial)

theorem bind_ofFault {call : Except Fault β} (hcall : ∃ b, call = .ok b ∧ Q b)
    (hf : ∀ b, Q b → Validates R S (f b)) : Validates R S (Failure.ofFault call >>= f) := by
  obtain ⟨b, rfl, hb⟩ := hcall
  exact hf b hb

theorem check (component : Component) (expected actual : ℕ) :
    Validates (expected = actual) (fun _ ↦ True)
      (Inconsistency.check component expected actual) := by
  rw [Inconsistency.check]
  by_cases h : expected = actual
  · rw [if_pos h]
    exact .inl ⟨h, (), rfl, trivial⟩
  · rw [if_neg h]
    exact .inr ⟨h, _, rfl⟩

theorem exists_ok_iff (he : Validates P Q e) : (∃ b, e = .ok b) ↔ P := by
  obtain ⟨hP, b, rfl, -⟩ | ⟨hnot, cause, rfl⟩ := he
  · exact iff_of_true ⟨b, rfl⟩ hP
  · refine iff_of_false ?_ hnot
    rintro ⟨b, hb⟩
    cases hb

theorem exists_error (he : Validates P Q e) (h : ¬P) : ∃ cause, e = .error (.error cause) :=
  (he.resolve_left fun hok ↦ h hok.1).2

end Validates

/-! ## Steady functions -/

structure ObjectiveSizes where
  /-- The length of the gradient. -/
  gradient : ℕ
  /-- The height of the Hessian. -/
  rows : ℕ
  /-- The width of the Hessian. -/
  cols : ℕ

structure ConstraintSizes where
  /-- The length of the values. -/
  values : ℕ
  /-- The height of the Jacobian. -/
  rows : ℕ
  /-- The width of the Jacobian. -/
  cols : ℕ

structure FunctionSizes where
  /-- The objective. -/
  objective : ObjectiveSizes
  /-- The nonlinear equality constraints. -/
  equality : ConstraintSizes
  /-- The nonlinear inequality constraints. -/
  inequality : ConstraintSizes

variable {α : Type} [Scalar α]

/-- The functions of the objective answer every point, always in the same sizes, given the numbers
of nonlinear constraints. -/
structure Objective.Steady (objective : Objective α) (sizes : ObjectiveSizes)
    (equalities inequalities : ℕ) : Prop where
  value : ∀ x, x.length = objective.domain.dim → ∃ f, objective.value x = .ok f
  gradient : ∀ x, x.length = objective.domain.dim →
    ∃ g, objective.gradient x = .ok g ∧ g.length = sizes.gradient
  hessian : ∀ x v w, x.length = objective.domain.dim → v.length = equalities →
    w.length = inequalities → ∃ op, objective.hessian x v w = .ok op
      ∧ op.HasShape sizes.rows sizes.cols

/-- The functions of the constraints answer every point in `n` variables, always in the same
sizes. -/
structure Constraints.Steady (constraints : Constraints α) (sizes : ConstraintSizes) (n : ℕ) :
    Prop where
  value : ∀ x, x.length = n → ∃ c, constraints.value x = .ok c ∧ c.length = sizes.values
  jacobian : ∀ x, x.length = n → ∃ op, constraints.jacobian x = .ok op
    ∧ op.HasShape sizes.rows sizes.cols

def Objective.declared (objective : Objective α) : ObjectiveSizes :=
  ⟨objective.domain.dim, objective.domain.dim, objective.domain.dim⟩

def Constraints.declared (constraints : Constraints α) (n : ℕ) : ConstraintSizes :=
  ⟨constraints.count, constraints.count, n⟩

namespace SlackForm

variable {p : SlackForm α} {sizes : FunctionSizes}

structure Steady (p : SlackForm α) (sizes : FunctionSizes) : Prop where
  objective : p.objective.Steady sizes.objective p.equality.count p.inequality.count
  equality : p.equality.Steady sizes.equality p.variableCount
  inequality : p.inequality.Steady sizes.inequality p.variableCount

/-- The sizes of all parts agree. -/
structure Consistent (p : SlackForm α) (sizes : FunctionSizes) : Prop where
  initial : p.initial.length = p.variableCount
  objective : sizes.objective = p.objective.declared
  equality : sizes.equality = p.equality.declared p.variableCount
  inequality : sizes.inequality = p.inequality.declared p.variableCount
  affineEquality : p.affineEquality.matrix.cols = p.variableCount
  affineInequality : p.affineInequality.matrix.cols = p.variableCount

omit [Scalar α] in
theorem validates_checkConstraints {constraints : Constraints α} {x : Vec α} {n : ℕ}
    {s : ConstraintSizes} (h : constraints.Steady s n) (hx : x.length = n)
    (values rows cols : Component) :
    Validates (s = constraints.declared n) (fun _ ↦ True)
      (checkConstraints constraints x n values rows cols) := by
  have hchecks : Validates (constraints.count = s.values ∧ constraints.count = s.rows ∧ n = s.cols)
      (fun _ ↦ True) (checkConstraints constraints x n values rows cols) := by
    refine Validates.bind_ofFault (h.value x hx) fun c hc ↦ ?_
    rw [hc]
    refine (Validates.check values _ _).bind fun _ _ _ ↦
      Validates.bind_ofFault (h.jacobian x hx) fun op hop ↦ ?_
    rw [hop.rows_eq, hop.cols_eq]
    exact (Validates.check rows _ _).bind fun _ _ _ ↦ Validates.check cols _ _
  refine hchecks.congr ?_
  obtain ⟨k, l, m⟩ := s
  rw [Constraints.declared, ConstraintSizes.mk.injEq]
  exact and_congr eq_comm (and_congr eq_comm eq_comm)

/-- **The checks are exact.** They accept the problem if the sizes of all parts agree, and they
report an inconsistency otherwise. -/
theorem validates_checkParts (h : p.Steady sizes) :
    Validates (p.Consistent sizes) (fun _ ↦ True) p.checkParts := by
  have hchecks : Validates (p.variableCount = p.initial.length
      ∧ p.variableCount = sizes.objective.gradient
      ∧ sizes.inequality = p.inequality.declared p.variableCount
      ∧ sizes.equality = p.equality.declared p.variableCount
      ∧ p.variableCount = p.affineInequality.matrix.cols
      ∧ p.variableCount = p.affineEquality.matrix.cols
      ∧ p.variableCount = sizes.objective.rows ∧ p.variableCount = sizes.objective.cols)
      (fun _ ↦ True) p.checkParts := by
    -- The functions are called at the initial point only after its length has been checked.
    refine (Validates.check .initialPoint _ _).bind fun _ hinitial _ ↦
      Validates.bind_ofFault (h.objective.gradient p.initial hinitial.symm) fun g hg ↦ ?_
    rw [hg]
    refine (Validates.check .objectiveGradient _ _).bind fun _ _ _ ↦
      (validates_checkConstraints h.inequality hinitial.symm _ _ _).bind fun _ _ _ ↦
        (validates_checkConstraints h.equality hinitial.symm _ _ _).bind fun _ _ _ ↦
          (Validates.check .affineInequalityColumns _ _).bind fun _ _ _ ↦
            (Validates.check .affineEqualityColumns _ _).bind fun _ _ _ ↦
              Validates.bind_ofFault (h.objective.hessian p.initial _ _ hinitial.symm
                (Vec.length_zeros _) (Vec.length_zeros _)) fun op hop ↦ ?_
    rw [hop.rows_eq, hop.cols_eq]
    exact (Validates.check .hessianRows _ _).bind fun _ _ _ ↦ Validates.check .hessianColumns _ _
  have hobjective : sizes.objective = p.objective.declared ↔
      p.variableCount = sizes.objective.gradient
        ∧ p.variableCount = sizes.objective.rows ∧ p.variableCount = sizes.objective.cols := by
    obtain ⟨⟨k, l, m⟩, _, _⟩ := sizes
    rw [Objective.declared, ObjectiveSizes.mk.injEq]
    exact and_congr eq_comm (and_congr eq_comm eq_comm)
  refine hchecks.congr ⟨?_, ?_⟩
  · rintro ⟨hinitial, hgradient, hinequality, hequality, hcolsInequality, hcolsEquality, hhessian⟩
    exact ⟨hinitial.symm, hobjective.mpr ⟨hgradient, hhessian⟩, hequality, hinequality,
      hcolsEquality.symm, hcolsInequality.symm⟩
  · intro h
    obtain ⟨hgradient, hhessian⟩ := hobjective.mp h.objective
    exact ⟨h.initial.symm, hgradient, h.inequality, h.equality, h.affineInequality.symm,
      h.affineEquality.symm, hhessian⟩

theorem validates_checked (h : p.Steady sizes) :
    Validates (p.Consistent sizes) (· = p) p.checked :=
  (validates_checkParts h).map fun _ _ ↦ rfl

end SlackForm

/-! ## Linear constraints -/

namespace AffineSystem

/-- The number of rows of the linear constraints that are given. -/
def givenCount : Option (DenseMatrix α × Vec α) → ℕ
  | some (_, offset) => offset.length
  | none => 0

/-- The system has the rows that are given, and as many columns as they have. -/
structure Represents (n : ℕ) (parts : Option (DenseMatrix α × Vec α)) (system : AffineSystem α) :
    Prop where
  rows_eq : ∀ a b, parts = some (a, b) → a.rows = b.length
  count_eq : system.count = givenCount parts
  cols_iff : system.matrix.cols = n ↔ ∀ a b, parts = some (a, b) → a.cols = n

/-- Every row of the matrix needs an offset. -/
theorem validates_ofParts? (n : ℕ) (parts : Option (DenseMatrix α × Vec α)) :
    Validates (∀ a b, parts = some (a, b) → a.rows = b.length) (Represents n parts)
      (ofParts? n parts) := by
  obtain _ | ⟨a, b⟩ := parts
  · exact .inl ⟨nofun, _, rfl, nofun, rfl, iff_of_true rfl nofun⟩
  rw [ofParts?, ofParts]
  by_cases h : a.rows = b.length
  · have hrows : ∀ a' b', some (a, b) = some (a', b') → a'.rows = b'.length := by
      rintro a b ⟨⟩
      exact h
    rw [dif_pos h]
    refine .inl ⟨hrows, _, rfl, hrows, rfl, ?_, fun hcols ↦ hcols a b rfl⟩
    rintro hcols a b ⟨⟩
    exact hcols
  · rw [dif_neg h]
    exact .inr ⟨fun hrows ↦ h (hrows a b rfl), _, rfl⟩

end AffineSystem

end LogBarrier
