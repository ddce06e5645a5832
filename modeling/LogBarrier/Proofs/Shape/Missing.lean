import LogBarrier.Proofs.Shape.Subproblem

/-!
# Missing numbers

What is computed from a vector with an entry that is not a number is often missing entirely. A
solution of least norm is a combination of columns, and the coefficient that is missing spoils every
entry of it. Nothing that the normal step does with such a solution brings a number back, so the
whole trial step is missing.

The barrier refuses the end of this step. That is the one place where a missing number is noticed:
bounds are tested by comparing, and a comparison with what is not a number never cuts a step short.
-/

namespace LogBarrier

open Extended

variable {allowed : Fault → Prop} {m n : ℕ}

/-! ## Vectors -/

namespace Vec

variable {x y : Vec Extended}

/-- No entry of the vector is a number. -/
def Missing (x : Vec Extended) : Prop := ∀ a ∈ x, a = nan

theorem Missing.map (hx : x.Missing) {f : Extended → Extended} (hf : f nan = nan) :
    Missing (x.map f) := by
  intro a ha
  obtain ⟨b, hb, rfl⟩ := List.mem_map.mp ha
  rw [hx b hb, hf]

theorem missing_zipWith {f : Extended → Extended → Extended}
    (h : ∀ a ∈ x, ∀ b ∈ y, f a b = nan) : Missing (List.zipWith f x y) := by
  intro c hc
  obtain ⟨i, hi, rfl⟩ := List.mem_iff_getElem.mp hc
  rw [List.getElem_zipWith]
  exact h _ (List.getElem_mem _) _ (List.getElem_mem _)

theorem missing_add_left (hx : x.length = n) (hy : y.length = n) (h : x.Missing) :
    Ensures allowed (fun z ↦ z.length = n ∧ z.Missing) (add x y) :=
  (ensures_add hx hy).mono_eq fun z hz hlength ↦ by
    rw [(combine_eq_ok_iff.mp hz).2] at hlength ⊢
    exact ⟨hlength, missing_zipWith fun a ha b _ ↦ by rw [h a ha, nan_add]⟩

theorem missing_add_right (hx : x.length = n) (hy : y.length = n) (h : y.Missing) :
    Ensures allowed (fun z ↦ z.length = n ∧ z.Missing) (add x y) :=
  (ensures_add hx hy).mono_eq fun z hz hlength ↦ by
    rw [(combine_eq_ok_iff.mp hz).2] at hlength ⊢
    exact ⟨hlength, missing_zipWith fun a _ b hb ↦ by rw [h b hb, add_nan]⟩

theorem missing_mul_left (hx : x.length = n) (hy : y.length = n) (h : x.Missing) :
    Ensures allowed (fun z ↦ z.length = n ∧ z.Missing) (mul x y) :=
  (ensures_mul hx hy).mono_eq fun z hz hlength ↦ by
    rw [(combine_eq_ok_iff.mp hz).2] at hlength ⊢
    exact ⟨hlength, missing_zipWith fun a ha b _ ↦ by rw [h a ha, nan_mul]⟩

theorem foldl_add_eq_nan {acc : Extended} (h : acc = nan ∨ nan ∈ x) :
    x.foldl (· + ·) acc = nan := by
  induction x generalizing acc with
  | nil => exact h.resolve_right List.not_mem_nil
  | cons a x ih =>
    refine ih ?_
    obtain rfl | hmem := h
    · exact .inl (nan_add a)
    obtain rfl | hmem := List.mem_cons.mp hmem
    · exact .inl (add_nan acc)
    · exact .inr hmem

theorem norm_eq_nan (h : nan ∈ x) : norm x = nan := by
  have hsquare : nan ∈ List.zipWith (· * ·) x x := by
    rw [List.zipWith_self]
    exact List.mem_map.mpr ⟨nan, h, nan_mul nan⟩
  rw [norm, normSq, dotSum, foldl_add_eq_nan (.inr hsquare), sqrt_nan]

theorem nan_mem_add (hx : x.length = n) (hy : y.length = n) (h : nan ∈ y) :
    Ensures allowed (fun z ↦ nan ∈ z) (add x y) := by
  rw [add, combine, if_pos (hx.trans hy.symm)]
  obtain ⟨i, hi, hnan⟩ := List.mem_iff_getElem.mp h
  refine List.mem_iff_getElem.mpr ⟨i, ?_, ?_⟩
  · rw [List.length_zipWith, hx, hy, Nat.min_self, ← hy]
    exact hi
  · rw [List.getElem_zipWith, hnan, add_nan]

end Vec

/-! ## Matrices -/

namespace DenseMatrix

variable {a r : DenseMatrix Extended} {x b : Vec Extended}

theorem missing_foldl_combination {terms : List (Vec Extended × Extended)}
    (h : x.Missing ∨ ∃ t ∈ terms, t.2 = nan) :
    Vec.Missing
      (terms.foldl (fun acc (c, a) ↦ List.zipWith (fun s b ↦ s + b * a) acc c) x) := by
  induction terms generalizing x with
  | nil => exact h.resolve_right fun ⟨_, ht, _⟩ ↦ List.not_mem_nil ht
  | cons t terms ih =>
    refine ih ?_
    obtain hx | ⟨t', ht', hnan⟩ := h
    · exact .inl (Vec.missing_zipWith fun a ha b _ ↦ by rw [hx a ha, nan_add])
    obtain rfl | ht' := List.mem_cons.mp ht'
    · exact .inl (Vec.missing_zipWith fun a _ b _ ↦ by rw [hnan, mul_nan, add_nan])
    · exact .inr ⟨t', ht', hnan⟩

theorem missing_combination {rows : ℕ} {columns : List (Vec Extended)}
    (hlength : x.length = columns.length) (h : nan ∈ x) :
    Vec.Missing (combination rows columns x) := by
  obtain _ | ⟨a, x⟩ := x
  · cases h
  obtain _ | ⟨c, columns⟩ := columns
  · cases hlength
  refine missing_foldl_combination ?_
  obtain rfl | hmem := List.mem_cons.mp h
  · refine .inl fun b hb ↦ ?_
    obtain ⟨d, -, rfl⟩ := List.mem_map.mp hb
    exact mul_nan d
  · -- The columns are as many as the coefficients, so the zip keeps every coefficient.
    have hsnd : (List.zip columns x).map Prod.snd = x :=
      List.map_snd_zip (Nat.succ.inj hlength).le
    rw [← hsnd] at hmem
    exact .inr (List.mem_map.mp hmem)

theorem missing_mulVec (hx : x.length = a.cols) (h : nan ∈ x) :
    Ensures allowed (fun y ↦ y.length = a.rows ∧ y.Missing) (a.mulVec x) := by
  refine (ensures_mulVec hx).mono_eq fun y hy hlength ↦ ⟨hlength, ?_⟩
  rw [mulVec, if_pos hx] at hy
  obtain rfl := Except.ok.inj hy
  exact missing_combination (hx.trans a.length_columns.symm) h

theorem nan_mem_solveLowerFrom {solved y : Vec Extended} {columns : List (Vec Extended)}
    (hlength : b.length = columns.length) (h : nan ∈ solved ∨ nan ∈ b)
    (hy : solveLowerFrom solved columns b = .ok y) : nan ∈ y := by
  induction columns generalizing solved b with
  | nil =>
    obtain rfl := List.length_eq_zero_iff.mp hlength
    rw [solveLowerFrom.eq_def] at hy
    obtain rfl := Except.ok.inj hy
    exact h.resolve_right List.not_mem_nil
  | cons c columns ih =>
    obtain _ | ⟨a, b⟩ := b
    · cases hlength
    rw [solveLowerFrom] at hy
    obtain ⟨u, hu, hy⟩ := bind_eq_ok_iff.mp hy
    refine ih (Nat.succ.inj hlength) ?_ hy
    obtain hmem | hmem := h
    · exact .inl (List.mem_append_left _ hmem)
    obtain rfl | hmem := List.mem_cons.mp hmem
    · rw [nan_sub, dividePivot] at hu
      split at hu
      · cases hu
      · obtain rfl := Except.ok.inj hu
        rw [nan_div]
        exact .inl (List.mem_append_right _ (List.mem_singleton_self nan))
    · exact .inr hmem

theorem nan_mem_solveTransposed (hr : r.HasPivots allowed) (hb : b.length = r.cols) (h : nan ∈ b) :
    Ensures allowed (fun y ↦ y.length = r.cols ∧ nan ∈ y) (r.solveTransposed b) := by
  refine (ensures_solveTransposed hr hb).mono_eq fun y hy hlength ↦ ⟨hlength, ?_⟩
  rw [solveTransposed, if_pos hb] at hy
  exact nan_mem_solveLowerFrom (hb.trans r.length_columns.symm) (.inr h) hy

end DenseMatrix

theorem Projector.missing_minNormSolution {p : Projector Extended} {b : Vec Extended}
    (hp : p.Regular allowed m n) (hb : b.length = m) (h : nan ∈ b) :
    Ensures allowed (fun x ↦ x.length = n ∧ x.Missing) (p.minNormSolution b) := by
  refine (DenseMatrix.nan_mem_solveTransposed hp.pivots (hb.trans hp.cols_triangular.symm) h).bind
    fun y hy ↦ ?_
  rw [← hp.variableCount]
  exact DenseMatrix.missing_mulVec
    (hy.1.trans (hp.cols_triangular.trans hp.constraintCount.symm)) hy.2

/-! ## Steps -/

namespace NormalStep

variable {a : DenseMatrix Extended} {p : Projector Extended} {b d lower upper : Vec Extended}

theorem missing_furthest (radius : Extended) (hd : d.length = n) (hlower : lower.length = n)
    (hupper : upper.length = n) (h : d.Missing) :
    Ensures allowed (fun x ↦ x.length = n ∧ x.Missing)
      (furthest (Vec.zeros n) d lower upper radius) :=
  (Segment.ensures_inBoxAndBall radius false (Vec.length_zeros n) hd hlower hupper).bind fun _ _ ↦
    Vec.missing_add_right (Vec.length_zeros n) ((Vec.length_scale _ _).trans hd)
      (h.map (nan_mul _))

/-- No step has a residual if an entry of the right hand side is missing. -/
theorem residual_eq_nan {x : Vec Extended} (hcols : a.cols = n) (hx : x.length = n)
    (hb : b.length = a.rows) (h : nan ∈ b) : Ensures allowed (· = nan) (residual a b x) :=
  (DenseMatrix.ensures_mulVec (hx.trans hcols.symm)).bind fun _ hy ↦
    (Vec.nan_mem_add hy hb h).bind fun _ hz ↦ Ensures.pure (Vec.norm_eq_nan hz)

/-- The normal step is missing if an entry of the residual is: its residual cannot be compared, so
it is on the way to the Newton point. -/
theorem missing_compute (radius : Extended) (hp : p.Regular allowed m n) (hrows : a.rows = m)
    (hcols : a.cols = n) (hb : b.length = m) (hlower : lower.length = n)
    (hupper : upper.length = n) (h : nan ∈ b) :
    Ensures allowed (fun r ↦ r.1.length = n ∧ r.1.Missing)
      (compute a p b radius lower upper) := by
  refine (Projector.missing_minNormSolution hp hb h).bind fun u ⟨hu, hmissing⟩ ↦ ?_
  have hnewton : (Vec.neg u).length = n := (Vec.length_neg u).trans hu
  have hneg : (Vec.neg u).Missing := hmissing.map neg_nan
  dsimp only
  split
  · exact Ensures.pure ⟨hnewton, hneg⟩
  rw [hnewton]
  refine (missing_furthest radius hnewton hlower hupper hneg).bind fun straight hstraight ↦
    (DenseMatrix.ensures_trMulVec (hb.trans hrows.symm)).bind fun g hg ↦
      (DenseMatrix.ensures_mulVec hg).bind fun w _ ↦ ?_
  split
  · exact Ensures.pure hstraight
  refine (ensures_doglegPoint radius hnewton ((Vec.length_scale _ _).trans (hg.trans hcols)) hlower
    hupper).bind fun bent hbent ↦
      (residual_eq_nan hcols hbent (hb.trans hrows.symm) h).bind fun _ _ ↦
        (residual_eq_nan hcols hstraight.1 (hb.trans hrows.symm) h).bind fun _ hresidual ↦
          Ensures.pure ?_
  rw [hresidual, if_neg (not_lt_nan _)]
  exact hstraight

end NormalStep

namespace SlackForm

variable {p : SlackForm Extended} {level : Level Extended} {z d : Vec Extended}

/-- A step that is missing leads to an iterate that is missing, since the scaling is diagonal. -/
theorem missing_next {op : Operator Extended} {change next : Vec Extended} (hz : z.length = p.dim)
    (hd : d.length = p.dim ∧ d.Missing) (hscaling : p.scaling z = .ok op)
    (hchange : op.apply d = .ok change) (hnext : Vec.add z change = .ok next) : next.Missing := by
  rw [scaling, split, if_pos hz] at hscaling
  obtain rfl := Except.ok.inj hscaling
  rw [Operator.apply, Operator.applyOver] at hchange
  split at hchange
  next hlength =>
    rw [Vec.length_zeros, Operator.rows] at hlength
    have hmissing : Defined _ _ := Vec.missing_mul_left hd.1 (hlength.trans hd.1) hd.2
    obtain ⟨hchangeLength, hchangeMissing⟩ := hmissing.of_eq_ok hchange
    have hadd : Defined _ _ := Vec.missing_add_right hz hchangeLength hchangeMissing
    exact (hadd.of_eq_ok hnext).2
  next => cases hchange

theorem value_of_missing (hslack : 0 < p.slackCount) (hz : z.length = p.dim) (h : z.Missing) :
    p.value level z = .error .slackNotPositive := by
  have hlength := length_slacks hz
  have hrefused : requirePositive (z.drop p.variableCount) = .error .slackNotPositive := by
    obtain ⟨a, ha⟩ := List.exists_mem_of_length_pos (hlength ▸ hslack)
    rw [requirePositive, Fault.require, if_neg]
    rw [List.all_eq_true]
    intro hall
    have hpos := hall a ha
    rw [h a (List.mem_of_mem_drop ha), decide_eq_true_eq] at hpos
    exact not_lt_nan 0 hpos
  rw [value, split, if_pos hz, ok_bind]
  dsimp only
  rw [hrefused]
  rfl

end SlackForm

namespace TrustRegion

variable {p : SlackForm Extended} {level : Level Extended} {options : TrustRegionOptions Extended}
  {bounds : StepBox Extended} {s : State Extended}

/-- **A missing constraint** makes the trial end in the fault of a slack. -/
theorem attempt_of_missing (hp : p.Total) (hslack : 0 < p.slackCount) (hdim : bounds.dim = p.dim)
    (hpoint : s.point.Shaped (· = .slackNotPositive) p.constraintCount p.dim)
    (h : nan ∈ s.point.residual) :
    attempt (p.atLevel level) options bounds s = .error .slackNotPositive := by
  have hproblem : (p.atLevel level).Shaped (· = .slackNotPositive) :=
    SlackForm.shaped_atLevel hp level rfl (.inl Projector.detectsZero)
  have hnormal : Defined (fun r ↦ r.1.length = p.dim ∧ r.1.Missing)
      (Trial.normalStep options bounds s.point s.radius) :=
    NormalStep.missing_compute _ hpoint.projector hpoint.rows hpoint.cols hpoint.residual
      ((Vec.length_scale _ _).trans hdim)
      ((Vec.length_scale _ _).trans (bounds.length_eq.symm.trans hdim)) h
  have hdefined : Defined (fun _ ↦ False) (attempt (p.atLevel level) options bounds s) := by
    refine hnormal.bind fun _ hn ↦ (ensures_tangentialStep hpoint hdim hn.1).bind fun _ ht ↦
      (Vec.missing_add_left hn.1 ht hn.2).bind fun step hstep ↦ ?_
    refine (ensures_evaluate (P := fun _ ↦ False) hproblem hpoint hstep.1
      fun op change next hscaling hchange hadd hnext ↦ ?_).mono fun _ h ↦ h.2
    have hmissing := SlackForm.missing_next hpoint.iterate hstep hscaling hchange hadd
    rw [show (p.atLevel level).objective next = .error .slackNotPositive from
      SlackForm.value_of_missing hslack hnext hmissing]
    exact Ensures.error rfl
  cases hattempt : attempt (p.atLevel level) options bounds s with
  | ok trial => exact (hdefined.of_eq_ok hattempt).elim
  | error cause => rw [hdefined.allowed_of_eq_error hattempt]

end TrustRegion

end LogBarrier
