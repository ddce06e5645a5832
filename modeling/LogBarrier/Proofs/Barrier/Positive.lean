import LogBarrier.Continuation.Basic
import LogBarrier.Proofs.Barrier.Interior

/-!
# Positive slacks

A step within the bounds of the fraction to the boundary rule leaves each slack at least the part of
its value that the rule protects. So a search that starts at an interior iterate stays in the
interior, and the logarithm of a slack never faults.
-/

namespace LogBarrier

open Extended

/-- Each slack has kept the part that the fraction to the boundary rule protects. -/
def KeepsPart (s t : Vec Extended) : Prop :=
  List.Forall₂ (fun a b ↦ (1 - Continuation.slackFraction) * a ≤ b) s t

/-- Slacks after a relative change by at least the least one that is allowed. -/
theorem keepsPart_zipWith {s e : Vec Extended} (hs : Vec.IsReal s) (hpositive : ∀ a ∈ s, 0 < a)
    (he : Vec.IsReal e) (hlower : ∀ a ∈ e, -Continuation.slackFraction ≤ a)
    (hlength : e.length = s.length) :
    KeepsPart s (List.zipWith (· + ·) s (List.zipWith (· * ·) e s)) := by
  induction s generalizing e with
  | nil => exact List.Forall₂.nil
  | cons a s ih =>
    obtain _ | ⟨b, e⟩ := e
    · cases hlength
    · rw [Vec.isReal_cons] at hs he
      rw [List.forall_mem_cons] at hpositive hlower
      refine List.Forall₂.cons ?_ (ih hs.2 hpositive.2 he.2 hlower.2 (Nat.succ.inj hlength))
      obtain ⟨x, rfl⟩ := hs.1
      obtain ⟨y, rfl⟩ := he.1
      have hx : 0 < x := hpositive.1
      have hy : -(0.995 : ℝ) ≤ y := hlower.1
      change real ((1 - 0.995) * x) ≤ real (x + y * x)
      rw [real_le]
      nlinarith

theorem KeepsPart.positive {s t : Vec Extended} (h : KeepsPart s t) (hs : Vec.IsReal s)
    (hpositive : ∀ a ∈ s, 0 < a) (ht : Vec.IsReal t) : ∀ b ∈ t, 0 < b := by
  induction h with
  | nil => exact hpositive
  | @cons a b s t hab _ ih =>
    rw [Vec.isReal_cons] at hs ht
    rw [List.forall_mem_cons] at hpositive ⊢
    refine ⟨?_, ih hs.2 hpositive.2 ht.2⟩
    obtain ⟨x, rfl⟩ := hs.1
    obtain ⟨y, rfl⟩ := ht.1
    have hx : 0 < x := hpositive.1
    have hxy : (1 - 0.995) * x ≤ y := hab
    refine real_lt.mpr (lt_of_lt_of_le ?_ hxy)
    norm_num
    exact hx

namespace SlackForm

variable {p : SlackForm Extended} {level : Level Extended} {z v d : Vec Extended}

theorem split_eq_ok {r : Vec Extended × Vec Extended} (h : p.split z = .ok r) :
    z.length = p.dim ∧ r = (z.take p.variableCount, z.drop p.variableCount) := by
  rw [split] at h
  split_ifs at h with hlength
  · cases h
    exact ⟨hlength, rfl⟩

theorem admitsZero_stepBox (p : SlackForm Extended) : (Continuation.stepBox p).AdmitsZero := by
  constructor
  · intro l hl
    rcases List.mem_append.mp hl with hl | hl
    · rw [List.eq_of_mem_replicate hl]
      exact negInf_le_real 0
    · rw [List.eq_of_mem_replicate hl]
      change real (-0.995) ≤ real 0
      rw [real_le]
      norm_num
  · intro u hu
    rw [List.eq_of_mem_replicate hu]
    exact real_le_posInf 0

theorem slackPart_of_contains (h : (Continuation.stepBox p).Contains d) :
    d.length = p.dim ∧ ∀ a ∈ d.drop p.variableCount, -Continuation.slackFraction ≤ a := by
  obtain ⟨hlength, hfits⟩ := h
  have hdim : d.length = p.dim := by
    rw [hlength, StepBox.dim, Continuation.stepBox, List.length_append, List.length_replicate,
      List.length_replicate, dim]
  refine ⟨hdim, fun a ha ↦ ?_⟩
  obtain ⟨i, hi⟩ := List.mem_iff_getElem?.mp ha
  rw [List.getElem?_drop] at hi
  obtain ⟨hlt, -⟩ := List.getElem?_eq_some_iff.mp hi
  refine (hfits (p.variableCount + i) a _ Scalar.infinity hi ?_ ?_).1
  · rw [Continuation.stepBox, List.getElem?_append_right (by rw [List.length_replicate]; omega),
      List.length_replicate, Nat.add_sub_cancel_left, List.getElem?_replicate_of_lt]
    rw [hdim, dim] at hlt
    omega
  · exact List.getElem?_replicate_of_lt (hdim ▸ hlt)

/-- An allowed step leads from an interior iterate to an interior one, and each slack keeps the part
that is protected. -/
theorem interior_next {op : Operator Extended} {c w : Vec Extended} (hz : p.Interior z)
    (hd : Vec.IsReal d) (hcontains : (Continuation.stepBox p).Contains d)
    (hop : p.scaling z = .ok op) (hc : op.apply d = .ok c) (hw : Vec.add z c = .ok w) :
    p.Interior w ∧ KeepsPart (z.drop p.variableCount) (w.drop p.variableCount) := by
  obtain ⟨⟨x, s⟩, hsplit, hop⟩ := bind_eq_ok_iff.mp hop
  obtain ⟨hlength, hr⟩ := split_eq_ok hsplit
  cases hr
  cases hop
  obtain ⟨hdim, hlower⟩ := slackPart_of_contains hcontains
  have hs : Vec.IsReal (z.drop p.variableCount) := hz.isReal.drop _
  have hreal : Vec.IsReal w :=
    (Vec.yields_add hz.isReal ((Operator.yields_apply (.diagonal (Vec.isReal_append.mpr
      ⟨Vec.IsReal.replicate isReal_one _, hs⟩)) hd).of_eq_ok hc)).of_eq_ok hw
  -- The scaling is diagonal, so the change of a slack is the slack times its entry of the step.
  rw [Operator.apply, Operator.applyOver] at hc
  split_ifs at hc
  obtain ⟨-, rfl⟩ := Vec.combine_eq_ok_iff.mp hc
  obtain ⟨hlengths, rfl⟩ := Vec.combine_eq_ok_iff.mp hw
  have hkeeps := keepsPart_zipWith hs hz.positive (hd.drop p.variableCount) hlower
    (by rw [List.length_drop, List.length_drop, hdim, hz.length_eq])
  have hdrop : List.drop p.variableCount
      (List.replicate p.variableCount (1 : Extended) ++ z.drop p.variableCount)
        = z.drop p.variableCount := List.drop_left' List.length_replicate
  have hslacks : List.drop p.variableCount (List.zipWith (· + ·) z
      (List.zipWith (· * ·) d (List.replicate p.variableCount 1 ++ z.drop p.variableCount)))
        = List.zipWith (· + ·) (z.drop p.variableCount)
          (List.zipWith (· * ·) (d.drop p.variableCount) (z.drop p.variableCount)) := by
    rw [List.drop_zipWith, List.drop_zipWith, hdrop]
  rw [hslacks]
  refine ⟨⟨hreal, ?_, ?_⟩, hkeeps⟩
  · rw [List.length_zipWith, ← hlengths, Nat.min_self, hz.length_eq]
  · rw [hslacks]
    exact hkeeps.positive hs hz.positive (hslacks ▸ hreal.drop p.variableCount)

/-! ## Searches in the interior -/

theorem interior_of_slackHessian {h : Vec Extended} (hz : Vec.IsReal z)
    (hok : p.slackHessian level z v = .ok h) : p.Interior z := by
  obtain ⟨_, -, hok⟩ := bind_eq_ok_iff.mp hok
  obtain ⟨⟨x, s⟩, hsplit, hok⟩ := bind_eq_ok_iff.mp hok
  obtain ⟨hlength, hr⟩ := split_eq_ok hsplit
  cases hr
  obtain ⟨_, hpositive, -⟩ := bind_eq_ok_iff.mp hok
  exact ⟨hz, hlength, requirePositive_eq_ok_iff.mp hpositive⟩

theorem realValued_atLevel (hp : p.RealValued) (hlevel : level.parameter.IsReal) :
    (p.atLevel level).RealValued where
  gradient _ _ hz h := (yields_gradient hp hlevel hz).of_eq_ok h
  constraints _ _ hz h := (yields_constraints hp hz).of_eq_ok h
  jacobian _ _ hz h := (yields_jacobian hp hz).of_eq_ok h
  hessian z v op hz hv h := by
    obtain ⟨_, -, hrest⟩ := bind_eq_ok_iff.mp h
    obtain ⟨_, -, hrest⟩ := bind_eq_ok_iff.mp hrest
    obtain ⟨_, hslack, -⟩ := bind_eq_ok_iff.mp hrest
    -- The Hessian has tested the slacks before, so nothing needs to be assumed about them.
    exact (yields_hessian hp hlevel (interior_of_slackHessian hz hslack) hv).of_eq_ok h
  scaling _ _ hz h := (yields_scaling hz).of_eq_ok h

/-! ## Faults -/

theorem noSlackFault_complete (hp : p.RealValued) (hlevel : level.parameter.IsReal)
    (hz : p.Interior z) {given : Option (Vec Extended)}
    (hgiven : ∀ v, given = some v → Vec.IsReal v)
    (objective : Extended) (residual : Vec Extended) :
    NoSlackFault (Point.complete (p.atLevel level) z objective residual given) := by
  rw [Point.complete_eq]
  refine FaultsWithin.bind_ofFault (yields_gradient hp hlevel hz.isReal) fun gradient hgradient ↦
    FaultsWithin.bind_ofFault (yields_jacobian hp hz.isReal) fun op hop ↦ ?_
  split
  next => exact nofun
  next projector hprojector =>
    have hreal := Projector.isReal_of_ofMatrix hop.toMatrix hprojector
    refine FaultsWithin.ofFault (P := fun _ ↦ True) ?_
    refine (Projector.yields_coefficients hreal hgradient).bind fun y hy ↦ ?_
    have hv : Vec.IsReal (given.getD (Vec.neg y)) := by
      cases given with
      | none => exact hy.neg
      | some v => exact hgiven v rfl
    exact (yields_hessian hp hlevel hz hv).bind fun _ _ ↦
      (DenseMatrix.yields_trMulVec hop.toMatrix hy.neg).bind fun w hw ↦
        (Vec.yields_add hgradient hw).bind fun _ _ ↦ Ensures.pure trivial

theorem noSlackFault_evaluate (hp : p.RealValued) (hlevel : level.parameter.IsReal)
    (hz : p.Interior z) (hv : Vec.IsReal v) :
    NoSlackFault (Point.evaluate (p.atLevel level) z v) :=
  FaultsWithin.bind_ofFault (yields_value hp hz) fun _ _ ↦
    FaultsWithin.bind_ofFault (yields_constraints hp hz.isReal) fun _ _ ↦
      noSlackFault_complete hp hlevel hz (fun _ h ↦ by cases h; exact hv) _ _

theorem yields_evaluate (hp : p.RealValued) (options : TrustRegionOptions Extended)
    {point : Point Extended} (hpoint : point.IsReal) (hz : p.Interior point.iterate)
    (penalty : Extended) (hd : Vec.IsReal d) (hcontains : (Continuation.stepBox p).Contains d) :
    Yields (fun _ ↦ True) (Trial.evaluate (p.atLevel level) options point penalty d) := by
  refine (Operator.yields_apply hpoint.hessian hd).bind fun image himage ↦
    (Vec.yields_dot himage hd).bind fun _ _ ↦ (Vec.yields_dot hpoint.gradient hd).bind fun _ _ ↦
      (DenseMatrix.yields_mulVec hpoint.jacobian hd).bind fun y hy ↦
        (Vec.yields_add hy hpoint.residual).bind fun _ _ ↦ ?_
  refine (yields_scaling hz.isReal).bind_eq fun op hop hreal ↦
    (Operator.yields_apply hreal hd).bind_eq fun change hchange hchangeReal ↦
      (Vec.yields_add hz.isReal hchangeReal).bind_eq fun next hnext _ ↦ ?_
  have hinterior := (interior_next hz hd hcontains hop hchange hnext).1
  exact (yields_value hp hinterior).bind fun _ _ ↦
    (yields_constraints hp hinterior.isReal).bind fun _ _ ↦ Ensures.pure trivial

end SlackForm

/-! ## Whole searches -/

namespace TrustRegion

variable {p : SlackForm Extended} {level : Level Extended} {options : TrustRegionOptions Extended}
  {s s₀ : State Extended} {trials : List (Trial Extended)} {trial : Trial Extended}

theorem interior_trial (hshare : options.SharesBounds) (hpoint : s.point.IsReal)
    (hz : p.Interior s.point.iterate)
    (h : attempt (p.atLevel level) options (Continuation.stepBox p) s = .ok trial) :
    p.Interior trial.next
      ∧ KeepsPart (s.point.iterate.drop p.variableCount) (trial.next.drop p.variableCount) := by
  obtain ⟨hd, hcontains⟩ := contains_of_attempt hshare (SlackForm.admitsZero_stepBox p) hpoint h
  obtain ⟨op, change, hop, hchange, hnext⟩ := (evaluated_of_attempt h).next
  exact SlackForm.interior_next hz hd hcontains hop hchange hnext

variable (hp : p.RealValued) (hlevel : level.parameter.IsReal)
  (hshare : options.SharesBounds) (h₀ : s₀.point.IsReal)
  (hz₀ : p.Interior s₀.point.iterate)

include hp hlevel hshare h₀

theorem Path.isReal_point
    (path : Path (p.atLevel level) options (Continuation.stepBox p) s₀ trials s) :
    s.point.IsReal :=
  path.isReal (SlackForm.realValued_atLevel hp hlevel) hshare (SlackForm.admitsZero_stepBox p) h₀

include hz₀

theorem Path.interior
    (path : Path (p.atLevel level) options (Continuation.stepBox p) s₀ trials s) :
    p.Interior s.point.iterate := by
  induction path with
  | start => exact hz₀
  | rejected _ _ _ _ ih => exact ih
  | accepted path _ proposed _ arrived ih =>
    rw [Point.iterate_of_complete (moved_eq_ok arrived).1]
    exact (interior_trial hshare (path.isReal_point hp hlevel hshare h₀) ih proposed).1

/-- No round of the search ends in the fault of a slack. -/
theorem Path.yields_attempt
    (path : Path (p.atLevel level) options (Continuation.stepBox p) s₀ trials s) :
    Yields (fun _ ↦ True) (attempt (p.atLevel level) options (Continuation.stepBox p) s) := by
  have hpoint := path.isReal_point hp hlevel hshare h₀
  have hz := path.interior hp hlevel hshare h₀ hz₀
  exact yields_step hshare (SlackForm.admitsZero_stepBox p) hpoint fun step hd hcontains ↦
    SlackForm.yields_evaluate hp options hpoint hz s.penalty hd hcontains

/-- What can be said about any conclusion of a search that starts at an interior iterate. -/
theorem Conclusion.interior {outcome : Except (Failure SolverError) (Report Extended)}
    {w : Vec Extended}
    (h : Conclusion (p.atLevel level) options (Continuation.stepBox p) s₀ outcome w) :
    p.Interior w ∧ NoSlackFault outcome
      ∧ ∀ report, outcome = .ok report → Vec.IsReal report.multipliers := by
  refine h.of_path
    (fun path ↦ ⟨path.interior hp hlevel hshare h₀ hz₀,
      (path.isReal_point hp hlevel hshare h₀).multipliers⟩)
    (fun path ↦ ?_) fun {_ s trial} path h ↦ ?_
  · exact (path.yields_attempt hp hlevel hshare h₀ hz₀).mono_eq fun trial proposed _ ↦
      (interior_trial hshare (path.isReal_point hp hlevel hshare h₀)
        (path.interior hp hlevel hshare h₀ hz₀) proposed).1
  · -- A search that fails to move has moved its iterate all the same, and to an interior one.
    have hnext := (interior_trial hshare (path.isReal_point hp hlevel hshare h₀)
      (path.interior hp hlevel hshare h₀ hz₀) h).1
    exact SlackForm.noSlackFault_complete hp hlevel hnext
      (fun v (hv : none = some v) ↦ nomatch hv) trial.objective trial.residual

end TrustRegion

end LogBarrier
