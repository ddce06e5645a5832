import LogBarrier.Proofs.TrustRegion.Endings

/-!
# Tangential steps and the linearized constraints

All iterates of a tangential step are in the null space of the constraint matrix, and so are all the
points of the lines that it searches. Hence a step keeps the linearized constraints, unless its last
iterate was clipped.

## The clipped iterate

The last movement searches for the part of a line in the box. The iterate from which it starts may
be outside of the box, and then the line may miss the box. The iterate is clipped in this case,
rather than replaced by the last one that was inside.
-/

namespace LogBarrier

open Extended

namespace TangentialStep

variable {model : Model Extended} {a : DenseMatrix Extended} {ρ τ : ℝ} {s : State Extended}
  {c x : Vec Extended} {m : ℕ} {stop : TangentialStop} {report : TangentialReport}

theorem FullStep.inNullSpace {k : Extended} (h : FullStep (real τ) s k x) (hτ : 0 < τ)
    (hs : s.Feasible model ρ) : model.projector.InNullSpace x := by
  obtain ⟨g, κ, -, -, -, -, ht⟩ := h.exists_real hτ hs.invariant.toIsReal
  have hreaches := h.reaches
  rw [ht] at hreaches
  exact hs.confined.x.add (hs.confined.direction.scale _) hreaches

theorem Moves.inNullSpace_or_clips (hm : model.PosedOver a ρ) (hτ : 0 < τ)
    (hs : s.Feasible model ρ) (h : Moves model (real τ) s x stop) :
    model.projector.InNullSpace x ∨ model.Clips s x := by
  cases h with
  | negativeCurvature _ _ _ hmoved =>
    refine (onLine_or_clips_of_negativeCurvature hm hs.confined hmoved).imp_left fun hline ↦ ?_
    obtain ⟨t, rfl, -⟩ := hline
    exact hs.confined.x.onLine hs.confined.direction t
  | ballBoundary hstep _ hmoved =>
    obtain ⟨g, κ, -, -, -, -, ht⟩ := hstep.exists_real hτ hs.invariant.toIsReal
    rw [ht] at hmoved
    refine (onLine_or_clips_of_towardsBoundary hm hs.confined hmoved).imp_left fun hline ↦ ?_
    obtain ⟨θ, rfl, -⟩ := hline
    exact hs.confined.x.onLine hs.confined.direction _

theorem Moves.stop_eq {α : Type} [Scalar α] {model : Model α} {tol : α} {s : State α} {x : Vec α}
    (h : Moves model tol s x stop) : stop = .ballBoundary ∨ stop = .negativeCurvature := by
  cases h with
  | negativeCurvature => exact .inr rfl
  | ballBoundary => exact .inl rfl

/-- **Tangency.** A tangential step is always found, and it keeps the linearized constraints, unless
it ended at the boundary of the ball or along a direction without positive curvature, and it is the
iterate that it had come to, outside of the box and clipped. -/
theorem compute_keeps_constraints (hm : model.PosedOver a ρ) (hc : Vec.IsReal c)
    (hlength : c.length = a.cols) :
    ∃ x report, compute model c (Vec.zeros a.rows) = .ok (x, report)
      ∧ (a.mulVec x = .ok (Vec.zeros a.rows)
        ∨ (report.stop = .ballBoundary ∨ report.stop = .negativeCurvature)
          ∧ ∃ s, Visits model c (Vec.zeros a.rows) s ∧ model.Clips s x) := by
  obtain ⟨x, report, h⟩ := hm.toOver.exists_compute hlength
  refine ⟨x, report, h, ?_⟩
  have hnull : model.projector.InNullSpace x ∨ ∃ s τ, Visits model c (Vec.zeros a.rows) s ∧ 0 < τ
      ∧ Moves model (real τ) s x report.stop :=
    holds_or_moves hm hc h (Projector.InNullSpace.zeros _)
      (fun s hs ↦ ⟨(hs.feasible hm hc).confined.x, (hs.feasible hm hc).confined.inside.1⟩)
      fun s τ k y hs hτ hstep _ ↦ hstep.inNullSpace hτ (hs.feasible hm hc)
  have hkeeps : model.projector.InNullSpace x → a.mulVec x = .ok (Vec.zeros a.rows) :=
    Projector.mulVec_of_inNullSpace hm.isReal_matrix hm.isFactored
  obtain hx | ⟨s, τ, hs, hτ, hmoves⟩ := hnull
  · exact .inl (hkeeps hx)
  · exact (hmoves.inNullSpace_or_clips hm hτ (hs.feasible hm hc)).imp hkeeps fun hclips ↦
      ⟨hmoves.stop_eq, s, hs, hclips⟩

end TangentialStep

/-! ## Vectors of three numbers -/

namespace Vec

theorem add_triple (x y z u v w : ℝ) : add [real x, real y, real z] [real u, real v, real w] =
    .ok [real (x + u), real (y + v), real (z + w)] := rfl

theorem sub_triple (x y z u v w : ℝ) : sub [real x, real y, real z] [real u, real v, real w] =
    .ok [real (x - u), real (y - v), real (z - w)] := by
  simp [sub, combine]

theorem dot_triple (x y z u v w : ℝ) : dot [real x, real y, real z] [real u, real v, real w] =
    .ok (real (0 + x * u + y * v + z * w)) := rfl

theorem normSq_triple (x y z : ℝ) : normSq [real x, real y, real z] =
    real (0 + x * x + y * y + z * z) := rfl

theorem scale_triple (x y z t : ℝ) : scale [real x, real y, real z] (real t) =
    [real (x * t), real (y * t), real (z * t)] := rfl

theorem norm_triple (x y z : ℝ) : norm [real x, real y, real z] =
    real √(0 + x * x + y * y + z * z) := by
  have hx := mul_self_nonneg x
  have hy := mul_self_nonneg y
  have hz := mul_self_nonneg z
  rw [norm, normSq_triple, sqrt_real (by linarith)]

end Vec

namespace TangentialStep

/-! ## An iterate that is clipped

The first full step leads out of the box, the second one would lead out of the ball, and no part of
it is in the box. -/

section Escape

/-- A constraint on the first and on the last of three variables. -/
noncomputable def escapeMatrix : DenseMatrix Extended :=
  DenseMatrix.ofRows 3 [[real (3 : ℕ), real 0, real (4 : ℕ)]]

/-- A model whose first iterate is outside of the box. -/
noncomputable def escapeModel (p : Projector Extended) : Model Extended where
  hessian := .diagonal [real 1, real (27 : ℕ), real 1]
  projector := p
  radius := real (4 : ℕ)
  lower := [real (-1), real (-1), real (-1 / (4 : ℕ))]
  upper := [real (1 / (4 : ℕ)), real 1, real 1]

noncomputable def escapeGradient : Vec Extended := [real (-(4 : ℕ)), real (-1), real (3 : ℕ)]

/-- The first iterate, clipped. -/
noncomputable def escapeStep : Vec Extended :=
  [real (1 / (4 : ℕ)), real (1 / (2 : ℕ)), real (-1 / (4 : ℕ))]

theorem isReal_escapeMatrix : escapeMatrix.IsReal := by
  refine DenseMatrix.isReal_ofRows fun r hr ↦ ?_
  rw [List.mem_singleton.mp hr]
  simp [Vec.isReal_cons]

theorem isReal_escapeGradient : Vec.IsReal escapeGradient := by
  simp [escapeGradient, Vec.isReal_cons]

theorem exists_projector_escape : ∃ p, Projector.ofMatrix escapeMatrix = .ok p := by
  obtain ⟨p, hp, -⟩ := Projector.ofMatrix_of_row (a := escapeMatrix) (r := [3, 0, 4]) rfl rfl
    (by norm_num) (by change ((3 : ℕ) : ℝ) < _; norm_num)
  exact ⟨p, hp⟩

variable {p : Projector Extended}

theorem posedOver_escapeModel (hp : Projector.ofMatrix escapeMatrix = .ok p) :
    (escapeModel p).PosedOver escapeMatrix 4 where
  hessian := ⟨.diagonal _, rfl, rfl⟩
  isReal_hessian := .diagonal (by simp [Vec.isReal_cons])
  isReal_matrix := isReal_escapeMatrix
  projector := Projector.belongsTo_of_ofMatrix hp
  radius := rfl
  radius_pos := by norm_num
  length_lower := rfl
  length_upper := rfl
  admitZero := by
    simp only [escapeModel, Vec.admitZero_cons, zero_eq, real_le]
    exact ⟨by norm_num, by norm_num, by norm_num, Vec.admitZero_nil⟩

theorem inNullSpace_escape (hp : Projector.ofMatrix escapeMatrix = .ok p) {x y z : ℝ}
    (h : 3 * x + 4 * z = 0) : p.InNullSpace [real x, real y, real z] := by
  have hfactored := (Projector.belongsTo_of_ofMatrix hp).isFactored isReal_escapeMatrix
  have hrows : p.variableCount = 3 := hfactored.rows_orthogonal
  have hcols : p.constraintCount = 1 := hfactored.cols_orthogonal
  have hproduct : ∀ i < 3, escapeMatrix.coeff 0 i =
      p.orthogonal.coeff i 0 * p.triangular.coeff 0 0 := by
    intro i hi
    rw [← DenseMatrix.coeff_transpose (m := escapeMatrix) hi Nat.one_pos,
      hfactored.product i hi 0 Nat.one_pos]
    exact Finset.sum_range_one _
  have h0 : 3 = p.orthogonal.coeff 0 0 * p.triangular.coeff 0 0 := hproduct 0 (by norm_num)
  have h1 : 0 = p.orthogonal.coeff 1 0 * p.triangular.coeff 0 0 := hproduct 1 (by norm_num)
  have h2 : 4 = p.orthogonal.coeff 2 0 * p.triangular.coeff 0 0 := hproduct 2 (by norm_num)
  have hpivot : p.triangular.coeff 0 0 ≠ 0 := by
    intro hzero
    rw [hzero, mul_zero] at h0
    norm_num at h0
  refine ⟨fun i ↦ [x, y, z].getD i 0, ?_, fun k hk ↦ ?_⟩
  · rw [hrows]
    rfl
  · rw [hcols, Nat.lt_one_iff] at hk
    subst hk
    rw [hrows]
    simp only [Finset.sum_range_succ, Finset.sum_range_zero, zero_add]
    refine mul_left_cancel₀ hpivot ?_
    change p.triangular.coeff 0 0 * (p.orthogonal.coeff 0 0 * x + p.orthogonal.coeff 1 0 * y
      + p.orthogonal.coeff 2 0 * z) = p.triangular.coeff 0 0 * 0
    linear_combination h - x * h0 - y * h1 - z * h2

theorem toNullSpace_escape (hp : Projector.ofMatrix escapeMatrix = .ok p) {x y z : ℝ}
    (h : 3 * x + 4 * z = 0) :
    p.toNullSpace [real x, real y, real z] = .ok [real x, real y, real z] :=
  Projector.toNullSpace_of_inNullSpace (posedOver_escapeModel hp).isReal.projector.orthogonal
    (inNullSpace_escape hp h)

theorem apply_escape (x y z : ℝ) : (escapeModel p).hessian.apply [real x, real y, real z] =
    .ok [real (x * 1), real (y * 27), real (z * 1)] := rfl

noncomputable def firstState : State Extended where
  x := [real 0, real 0, real 0]
  inside := [real 0, real 0, real 0]
  gradient := [real (-(4 : ℕ)), real (-1), real (3 : ℕ)]
  direction := [real (4 : ℕ), real 1, real (-(3 : ℕ))]
  image := [real (4 : ℕ), real (27 : ℕ), real (-(3 : ℕ))]
  gradientSq := real (26 : ℕ)
  rounds := 0
  outside := 0

noncomputable def secondState : State Extended where
  x := [real (2 : ℕ), real (1 / (2 : ℕ)), real (-(3 : ℕ) / (2 : ℕ))]
  inside := [real 0, real 0, real 0]
  gradient := [real (-(2 : ℕ)), real ((25 : ℕ) / (2 : ℕ)), real ((3 : ℕ) / (2 : ℕ))]
  direction := [real (27 : ℕ), real (-(25 : ℕ) / (4 : ℕ)), real (-(81 : ℕ) / (4 : ℕ))]
  image := [real (27 : ℕ), real (-(675 : ℕ) / (4 : ℕ)), real (-(81 : ℕ) / (4 : ℕ))]
  gradientSq := real ((325 : ℕ) / (2 : ℕ))
  rounds := 1
  outside := 1

theorem start_escape (hp : Projector.ofMatrix escapeMatrix = .ok p) :
    start (escapeModel p) escapeGradient (Vec.zeros 1) = .ok firstState := by
  have hposed := posedOver_escapeModel hp
  obtain ⟨u, hu, hlength⟩ := (Projector.ensures_minNormSolution
    (hposed.toOver.shaped fun _ ↦ False).projector (Vec.length_zeros 1)).exists_ok
  have hzero := (Projector.yields_minNormSolution_zeros hposed.isReal.projector 1).of_eq_ok hu
  obtain rfl : u = Vec.zeros 3 := List.eq_replicate_iff.mpr ⟨hlength, hzero⟩
  have hcount : (escapeModel p).projector.variableCount = 3 := hposed.variableCount
  have hx : Vec.neg (Vec.zeros 3) = [real 0, real 0, real 0] := by
    simp [Vec.neg, Vec.zeros, List.replicate]
  have hproject : (escapeModel p).projector.toNullSpace [real (-4), real (-1), real 3] = .ok _ :=
    toNullSpace_escape hp (by norm_num)
  rw [start, hu, ok_bind, hx]
  dsimp only
  rw [apply_escape, ok_bind, escapeGradient, Vec.add_triple, ok_bind]
  norm_num only
  rw [hproject, ok_bind, hproject, ok_bind]
  change (Operator.apply _ [real (- -4), real (- -1), real (-3)] >>= _) = _
  rw [apply_escape, ok_bind, hcount, Vec.normSq_triple]
  norm_num [firstState, Vec.neg, Vec.zeros, List.replicate]
  rfl

theorem tolerance_escape : ∃ τ : ℝ, tolerance firstState.gradientSq = real τ ∧ τ ≤ 26 := by
  rw [firstState, Nat.cast_ofNat]
  exact exists_tolerance_le (by norm_num)

theorem fullStep_first {τ : ℝ} (hτ : τ ≤ 26) :
    FullStep (real τ) firstState (real 52) [real 2, real (1 / 2), real (-3 / 2)] where
  large := fun h ↦ not_lt.mpr hτ (real_lt.mp h)
  curvature := by
    rw [firstState, Vec.dot_triple]
    norm_num
  positive := by
    rw [zero_eq, real_le]
    norm_num
  reaches := by
    rw [firstState, real_div (by norm_num), Vec.scale_triple, Vec.add_triple]
    norm_num

theorem fullStep_second {τ : ℝ} (hτ : τ ≤ 26) :
    FullStep (real τ) secondState (real (8775 / 4)) [real 4, real (1 / 27), real (-3)] where
  large := fun h ↦ absurd (real_lt.mp h) (not_lt.mpr (hτ.trans (by norm_num)))
  curvature := by
    rw [secondState, Vec.dot_triple]
    norm_num
  positive := by
    rw [zero_eq, real_le]
    norm_num
  reaches := by
    rw [secondState, real_div (by norm_num), Vec.scale_triple, Vec.add_triple]
    norm_num

theorem not_fits_escape : ¬Vec.Fits [real 2, real (1 / 2), real (-3 / 2)] (escapeModel p).lower
    (escapeModel p).upper := by
  intro h
  have hle := (h 0 (real 2) _ (real (1 / 4)) rfl rfl rfl).2
  rw [real_le] at hle
  norm_num at hle

theorem advance_escape (hp : Projector.ofMatrix escapeMatrix = .ok p) :
    advance (escapeModel p) (firstState.counted.noting (escapeModel p)
      [real 2, real (1 / 2), real (-3 / 2)]) (firstState.gradientSq / real 52)
      [real 2, real (1 / 2), real (-3 / 2)] = .ok secondState := by
  have hproject : (escapeModel p).projector.toNullSpace [real (-2), real (25 / 2), real (3 / 2)] =
      .ok _ := toNullSpace_escape hp (by norm_num)
  have hinBox : Vec.inBox [real 2, real (1 / 2), real (-3 / 2)] (escapeModel p).lower
      (escapeModel p).upper ≠ true := fun h ↦ not_fits_escape (Vec.inBox_iff.mp h)
  rw [State.noting, if_neg hinBox, advance, State.counted, firstState, real_div (by norm_num)]
  dsimp only
  rw [Vec.scale_triple, Vec.add_triple, ok_bind]
  norm_num only
  rw [hproject, ok_bind, Vec.normSq_triple, real_div (by norm_num), Vec.scale_triple,
    Vec.sub_triple, ok_bind, apply_escape, ok_bind]
  norm_num [secondState]
  rfl

theorem segment_escape (hp : Projector.ofMatrix escapeMatrix = .ok p) :
    Segment.inBoxAndBall [real 2, real (1 / 2), real (-3 / 2)]
      [real 2, real (-25 / 54), real (-3 / 2)] (escapeModel p).lower (escapeModel p).upper
      (escapeModel p).radius false = .ok none := by
  have hdefined : Ensures (fun _ ↦ False) (fun _ ↦ True)
      (Segment.inBoxAndBall [real 2, real (1 / 2), real (-3 / 2)]
        [real 2, real (-25 / 54), real (-3 / 2)] (escapeModel p).lower (escapeModel p).upper
        (escapeModel p).radius false) :=
    Segment.ensures_inBoxAndBall (escapeModel p).radius false rfl rfl rfl rfl
  obtain ⟨segment, hsegment, -⟩ := hdefined.exists_ok
  cases segment with
  | none => exact hsegment
  | some ends =>
    obtain ⟨hfits, hunit⟩ := (Segment.yields_inBoxAndBall (by simp [Vec.isReal_cons])
      (by simp [Vec.isReal_cons]) (posedOver_escapeModel hp).admitZero (escapeModel p).radius
      false).of_eq_ok hsegment ends.1 ends.2 rfl
    obtain ⟨t, ht, hzero, -⟩ := hunit rfl
    have hle := (hfits t ht 0 (real (2 + 2 * t)) _ (real (1 / 4)) rfl rfl rfl).2
    rw [real_le] at hle
    linarith

theorem towardsBoundary_escape (hp : Projector.ofMatrix escapeMatrix = .ok p) :
    towardsBoundary (escapeModel p) secondState.counted
      (Vec.scale secondState.direction (secondState.gradientSq / real (8775 / 4))) =
      .ok escapeStep := by
  have hstep : Vec.scale secondState.direction (secondState.gradientSq / real (8775 / 4)) =
      [real 2, real (-25 / 54), real (-3 / 2)] := by
    rw [secondState, real_div (by norm_num), Vec.scale_triple]
    norm_num
  rw [hstep, towardsBoundary, State.counted, secondState]
  simp only [Nat.cast_ofNat]
  rw [segment_escape hp, ok_bind]
  change Except.ok [real (min (max 2 (-1)) (1 / 4)), real (min (max (1 / 2) (-1)) 1),
    real (min (max (-3 / 2) (-1 / 4)) 1)] = _
  norm_num [escapeStep]

theorem compute_escape (hp : Projector.ofMatrix escapeMatrix = .ok p) :
    compute (escapeModel p) escapeGradient (Vec.zeros 1) =
      .ok (escapeStep, ⟨2, .ballBoundary, true⟩) := by
  have hposed := posedOver_escapeModel hp
  have hshape := (hposed.toOver.shaped fun _ ↦ False).projector
  have hrounds : (escapeModel p).roundLimit = 2 := by
    rw [Model.roundLimit, hshape.variableCount, hshape.constraintCount]
    rfl
  obtain ⟨τ, hτ, hle⟩ := tolerance_escape
  rw [compute, start_escape hp, ok_bind]
  have hroom : ¬(escapeModel p).radius - Vec.norm firstState.x < negligible := by
    rw [firstState, Vec.norm_triple]
    norm_num [escapeModel, negligible]
  have hball : ¬(escapeModel p).radius ≤ Vec.norm [real 2, real (1 / 2), real (-3 / 2)] := by
    rw [Vec.norm_triple, escapeModel, real_le, not_le, Real.sqrt_lt' (by norm_num)]
    norm_num
  have hball' : (escapeModel p).radius ≤ Vec.norm [real 4, real (1 / 27), real (-3)] := by
    rw [Vec.norm_triple, escapeModel, real_le]
    exact Real.le_sqrt_of_sq_le (by norm_num)
  have hlost : isLost (firstState.counted.noting (escapeModel p)
      [real 2, real (1 / 2), real (-3 / 2)]) 2 = false := by
    rw [isLost, State.noting]
    split <;> rfl
  have hinBox : Vec.inBox escapeStep (escapeModel p).lower (escapeModel p).upper = true := by
    norm_num [Vec.inBox, escapeModel, escapeStep]
  rw [if_neg hroom, hrounds, hτ]
  dsimp only
  rw [iterate_of_fullStep (fullStep_first hle) hball hlost (advance_escape hp),
    iterate_of_ballBoundary (fullStep_second hle) hball' (towardsBoundary_escape hp), ok_bind]
  dsimp only
  rw [conclude, if_pos hinBox]
  rfl

theorem mulVec_escape : escapeMatrix.mulVec escapeStep = .ok [real (-1 / 4)] := by
  change Except.ok [real (3 * (1 / 4) + 0 * (1 / 2) + 4 * (-1 / 4))] = _
  norm_num

theorem mulVec_escape_ne : escapeMatrix.mulVec escapeStep ≠ .ok (Vec.zeros escapeMatrix.rows) := by
  intro h
  have hentries : [real (-1 / 4)] = [real 0] := Except.ok.inj (mulVec_escape.symm.trans h)
  rw [List.cons.injEq, real_inj] at hentries
  norm_num at hentries

/-- A tangential step may leave the linearized constraints. -/
theorem clipped_step_leaves_constraints :
    ∃ p, (escapeModel p).PosedOver escapeMatrix 4 ∧ Vec.IsReal escapeGradient
      ∧ compute (escapeModel p) escapeGradient (Vec.zeros escapeMatrix.rows) =
        .ok (escapeStep, ⟨2, .ballBoundary, true⟩)
      ∧ escapeMatrix.mulVec escapeStep ≠ .ok (Vec.zeros escapeMatrix.rows) := by
  obtain ⟨p, hp⟩ := exists_projector_escape
  exact ⟨p, posedOver_escapeModel hp, isReal_escapeGradient, compute_escape hp, mulVec_escape_ne⟩

/-- The step that leaves the constraints is a clipped iterate. -/
theorem escaping_step_is_clipped :
    ∃ p, (escapeModel p).PosedOver escapeMatrix 4
      ∧ ∃ s, Visits (escapeModel p) escapeGradient (Vec.zeros escapeMatrix.rows) s
        ∧ (escapeModel p).Clips s escapeStep := by
  obtain ⟨p, hp⟩ := exists_projector_escape
  obtain ⟨x, report, h, hx⟩ :=
    compute_keeps_constraints (posedOver_escapeModel hp) isReal_escapeGradient rfl
  obtain ⟨rfl, -⟩ := Prod.mk.inj (Except.ok.inj ((compute_escape hp).symm.trans h))
  obtain hkeeps | ⟨-, hclips⟩ := hx
  · exact absurd hkeeps mulVec_escape_ne
  · exact ⟨p, posedOver_escapeModel hp, hclips⟩

end Escape

end TangentialStep

end LogBarrier
