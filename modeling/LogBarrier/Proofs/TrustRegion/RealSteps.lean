import LogBarrier.Proofs.TrustRegion.Reals

/-!
# Steps under arbitrary bounds

Where the bounds on a step do not admit the origin, a step need not be within them. It consists of
real numbers all the same. The bounds and the radius enter a step through tests, through the ends of
segments between zero and one, and by moving a vector into the box. The last of these is the only
one that asks anything of them: a bound must not exclude all real numbers.

The options do not matter here, and neither does the radius.
-/

namespace LogBarrier

open Extended

/-- Bounds on a step that do not exclude all real numbers. -/
def StepBox.AdmitsReals (bounds : StepBox Extended) : Prop :=
  Vec.AdmitReals bounds.lower bounds.upper

/-- A shift by real numbers does not make a bound exclude them all. -/
theorem Vec.AdmitReals.shifted {x lower upper : Vec Extended} (h : AdmitReals lower upper)
    (hx : IsReal x) :
    AdmitReals (List.zipWith (· - ·) lower x) (List.zipWith (· - ·) upper x) := by
  constructor
  · refine forall_mem_zipWith fun l hl a ha ↦ ?_
    obtain ⟨t, rfl⟩ := hx a ha
    intro hinf
    refine h.lower_ne l hl ?_
    cases l with
    | posInf => rfl
    | _ => cases hinf
  · refine forall_mem_zipWith fun u hu a ha ↦ ?_
    obtain ⟨t, rfl⟩ := hx a ha
    intro hinf
    refine h.upper_ne u hu ?_
    cases u with
    | negInf => rfl
    | _ => cases hinf

/-! ## Normal steps -/

namespace NormalStep

variable {a : DenseMatrix Extended} {p : Projector Extended} {b x y z d : Vec Extended}

theorem yields_furthest_isReal (hz : Vec.IsReal z) (hd : Vec.IsReal d) (lower upper : Vec Extended)
    (radius : Extended) : Yields Vec.IsReal (furthest z d lower upper radius) := by
  refine (Segment.yields_inBoxAndBall_last hz hd lower upper radius false).bind fun r hr ↦ ?_
  obtain _ | ⟨first, last⟩ := r
  · exact Vec.yields_add hz (hd.scale isReal_zero)
  · exact Vec.yields_add hz (hd.scale (hr rfl first last rfl))

theorem yields_doglegPoint_isReal (hx : Vec.IsReal x) (hy : Vec.IsReal y)
    (lower upper : Vec Extended) (radius : Extended) :
    Yields Vec.IsReal (doglegPoint x y lower upper radius) := by
  refine (Vec.yields_sub hx hy).bind fun leg hleg ↦
    (Segment.yields_inBoxAndBall_last hy hleg lower upper radius false).bind fun r hr ↦ ?_
  obtain _ | ⟨first, last⟩ := r
  · exact yields_furthest_isReal (Vec.IsReal.zeros _) hy lower upper radius
  · exact Vec.yields_add hy (hleg.scale (hr rfl first last rfl))

theorem candidateRule_isReal (ha : a.IsReal) (hp : p.IsReal) (hb : Vec.IsReal b)
    (lower upper : Vec Extended) (radius : Extended) :
    CandidateRule a p b lower upper radius Vec.IsReal Vec.IsReal where
  isReal _ hx := hx
  newton _ hu := ((Projector.yields_minNormSolution hp hb).of_eq_ok hu).neg
  cauchy _ t hg := ((DenseMatrix.yields_trMulVec ha hb).of_eq_ok hg).scale (isReal_real t)
  fitting _ hx _ _ := hx
  straight _ hx := yields_furthest_isReal (Vec.IsReal.zeros _) hx lower upper radius
  bent _ _ hx hy := yields_doglegPoint_isReal hx hy lower upper radius

end NormalStep

/-! ## Tangential steps -/

namespace TangentialStep

variable {model : Model Extended} {c : Vec Extended}

theorem roundRule_isReal (hm : model.StaysReal) :
    RoundRule model State.IsReal fun s ↦ Vec.IsReal s.x ∧ Vec.IsReal s.inside where
  isReal _ hs := hs
  done _ hs := ⟨hs.x, hs.inside⟩
  alongNegativeCurvature _ hs := (yields_alongNegativeCurvature hm hs.counted).mono fun _ hx ↦
    ⟨hx, hs.inside⟩
  towardsBoundary _ t hs :=
    (yields_towardsBoundary hm hs.counted (hs.direction.scale (isReal_real t))).mono fun _ hx ↦
      ⟨hx, hs.inside⟩
  lost _ t _ hs hadd _ :=
    have hx := (Vec.yields_add hs.x (hs.direction.scale (isReal_real t))).of_eq_ok hadd
    have hnoting := hs.counted.noting hx
    ⟨hnoting.x, hnoting.inside⟩
  advance s t _ hs hgradient hadd _ := by
    have hx := (Vec.yields_add hs.x (hs.direction.scale (isReal_real t))).of_eq_ok hadd
    refine (yields_advance_isReal hm (hs.counted.noting hx) (isReal_real t) ?_ hx).mono
      fun _ hs' ↦ hs'.1
    rwa [State.gradientSq_noting, State.counted]

theorem yields_compute_isReal (hm : model.StaysReal) (hc : Vec.IsReal c) (m : ℕ) :
    Yields (fun r ↦ Vec.IsReal r.1) (compute model c (Vec.zeros m)) := by
  refine (yields_start_isReal hm hc m).bind fun s hs ↦ ?_
  obtain ⟨hreal, -, -, hgradient⟩ := hs
  obtain ⟨τ, htol, hτ⟩ := tolerance_pos hreal.gradientSq hgradient
  split
  · exact Ensures.pure hreal.x
  · rw [htol]
    refine ((roundRule_isReal hm).yields_iterate hτ _ _ hreal).bind fun r hr ↦ Ensures.pure ?_
    rw [conclude]
    split
    · exact hr.1
    · exact hr.2

end TangentialStep

/-! ## Trial steps -/

namespace TrustRegion

variable {problem : InnerProblem Extended} {options : TrustRegionOptions Extended}
  {bounds : StepBox Extended} {s : State Extended} {trial : Trial Extended}

theorem isReal_step (hbounds : bounds.AdmitsReals) (hpoint : s.point.IsReal)
    {normal : Vec Extended × NormalKind} {tangential : Vec Extended × TangentialReport}
    {step : Vec Extended} (hnormal : Trial.normalStep options bounds s.point s.radius = .ok normal)
    (htangential : Trial.tangentialStep bounds s.point s.radius normal.1 = .ok tangential)
    (hstep : Vec.add normal.1 tangential.1 = .ok step) : Vec.IsReal step := by
  have hn : Vec.IsReal normal.1 :=
    ((NormalStep.candidateRule_isReal hpoint.jacobian hpoint.projector hpoint.residual _ _
      _).yields_compute hpoint.jacobian hpoint.projector hpoint.residual).of_eq_ok hnormal
  have ht : Yields (fun r ↦ Vec.IsReal r.1)
      (Trial.tangentialStep bounds s.point s.radius normal.1) := by
    refine Trial.yields_tangentialStep_of hpoint hn fun model gradient hmodel hgradient ↦ ?_
    obtain ⟨-, hhessian, hprojector, -, hlower, hupper⟩ := Trial.tangentialModel_eq_ok hmodel
    have hm : model.StaysReal := by
      refine ⟨hhessian ▸ hpoint.hessian, hprojector ▸ hpoint.projector, ?_⟩
      rw [hlower, hupper]
      exact Vec.AdmitReals.shifted hbounds hn
    exact TangentialStep.yields_compute_isReal hm hgradient _
  exact (Vec.yields_add hn (ht.of_eq_ok htangential)).of_eq_ok hstep

theorem isReal_step_of_attempt (hbounds : bounds.AdmitsReals) (hpoint : s.point.IsReal)
    (h : attempt problem options bounds s = .ok trial) : Vec.IsReal trial.step := by
  obtain ⟨normal, tangential, hnormal, htangential, hstep, -⟩ := attempt_eq_ok h
  exact isReal_step hbounds hpoint hnormal htangential hstep

theorem isReal_next_of_attempt (hproblem : problem.RealValued) (hbounds : bounds.AdmitsReals)
    (hpoint : s.point.IsReal) (h : attempt problem options bounds s = .ok trial) :
    Vec.IsReal trial.next :=
  Trial.isReal_next hproblem hpoint.iterate (isReal_step_of_attempt hbounds hpoint h)
    (evaluated_of_attempt h)

/-! ## Whole searches -/

variable {s₀ : State Extended} {trials : List (Trial Extended)} {z v : Vec Extended}
  {radius penalty : Extended}

/-- Every point of a search consists of real numbers, whatever the options are. -/
theorem Path.isReal_of_admitsReals (hproblem : problem.RealValued) (hbounds : bounds.AdmitsReals)
    (h₀ : s₀.point.IsReal) (path : Path problem options bounds s₀ trials s) : s.point.IsReal := by
  induction path with
  | start => exact h₀
  | rejected _ _ _ _ ih => exact ih
  | accepted _ _ proposed _ arrived ih =>
    exact isReal_moved hproblem (isReal_next_of_attempt hproblem hbounds ih proposed)
      (evaluated_of_attempt proposed) arrived

theorem isReal_solve (hproblem : problem.RealValued) (hbounds : bounds.AdmitsReals)
    (hz : Vec.IsReal z) (hv : Vec.IsReal v) (limit : ℕ) :
    Vec.IsReal (solve problem options bounds z v radius penalty limit).2.iterate
      ∧ ∀ report, (solve problem options bounds z v radius penalty limit).1 = .ok report →
        Vec.IsReal report.multipliers := by
  obtain ⟨hrefused, hiterate⟩ | ⟨failure, -, hfailed, hiterate⟩ | ⟨s₀, hs₀, hconclusion⟩ :=
    solve_concludes problem options bounds z v radius penalty limit
  · rw [hrefused, hiterate]
    exact ⟨hz, nofun⟩
  · rw [hfailed, hiterate]
    exact ⟨hz, nofun⟩
  have hpath : ∀ {trials s}, Path problem options bounds s₀ trials s → s.point.IsReal :=
    fun path ↦ path.isReal_of_admitsReals hproblem hbounds (isReal_start hproblem hz hv hs₀)
  generalize solve problem options bounds z v radius penalty limit = r at hconclusion
  obtain ⟨outcome, journal⟩ := r
  dsimp only at hconclusion ⊢
  generalize journal.iterate = w at hconclusion ⊢
  cases hconclusion with
  | stopped path =>
    refine ⟨(hpath path).iterate, fun report hreport ↦ ?_⟩
    cases hreport
    exact (hpath path).multipliers
  | unfinished path => exact ⟨(hpath path).iterate, nofun⟩
  | attemptFault path => exact ⟨(hpath path).iterate, nofun⟩
  | moveFailure path _ proposed =>
    exact ⟨isReal_next_of_attempt hproblem hbounds (hpath path) proposed, nofun⟩

end TrustRegion

end LogBarrier
