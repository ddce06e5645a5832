import LogBarrier.Proofs.TrustRegion.Arrivals

/-!
# Conclusions

There are five ways in which a search ends: the stopping criterion, the radius, the number of
rounds, a fault of the trial step and a failure at an accepted iterate. Only in the last case has
the iterate moved to a place that no round started from.

A solve may end before it searches, when there are not as many bounds as variables or when the first
iterate cannot be evaluated.
-/

namespace LogBarrier

variable {α : Type} [Scalar α]

namespace TrustRegion

open Run

variable {problem : InnerProblem α} {options : TrustRegionOptions α} {bounds : StepBox α}
  {z v : Vec α} {radius penalty : α} {s s' s₀ : State α} {trial : Trial α}
  {trials : List (Trial α)} {j : Journal α}

/-! ## Searches -/

/-- How a search from the first state can end, and the iterate that it leaves. -/
inductive Conclusion (problem : InnerProblem α) (options : TrustRegionOptions α)
    (bounds : StepBox α) (s₀ : State α) : Except (Failure SolverError) (Report α) → Vec α → Prop
  | stopped {trials : List (Trial α)} {s : State α} (path : Path problem options bounds s₀ trials s)
      (stop : problem.stop s.report = true ∨ s.radius < options.minRadius) :
      Conclusion problem options bounds s₀ (.ok s.report) s.point.iterate
  | unfinished {trials : List (Trial α)} {s : State α}
      (path : Path problem options bounds s₀ trials s) :
      Conclusion problem options bounds s₀ (.error .unfinished) s.point.iterate
  | attemptFault {trials : List (Trial α)} {s : State α} {cause : Fault}
      (path : Path problem options bounds s₀ trials s) (going : GoesOn problem options s)
      (proposed : attempt problem options bounds s = .error cause) :
      Conclusion problem options bounds s₀ (.error (.fault cause)) s.point.iterate
  | moveFailure {trials : List (Trial α)} {s : State α} {trial : Trial α}
      {failure : Failure SolverError} (path : Path problem options bounds s₀ trials s)
      (going : GoesOn problem options s)
      (proposed : attempt problem options bounds s = .ok trial)
      (taken : trial.isAccepted options = true)
      (lost : moved problem options s trial = .error failure) :
      Conclusion problem options bounds s₀ (.error failure) trial.next

/-- What holds along all paths holds of every conclusion: of the iterate that is left, of the faults
and of the report. -/
theorem Conclusion.of_path {outcome : Except (Failure SolverError) (Report α)} {w : Vec α}
    {allowed : Fault → Prop} {P : Vec α → Prop} {Q : Report α → Prop}
    (h : Conclusion problem options bounds s₀ outcome w)
    (hstate : ∀ {trials s}, Path problem options bounds s₀ trials s →
      P s.point.iterate ∧ Q s.report)
    (hattempt : ∀ {trials s}, Path problem options bounds s₀ trials s →
      Ensures allowed (fun trial ↦ P trial.next) (attempt problem options bounds s))
    (hcomplete : ∀ {trials s trial}, Path problem options bounds s₀ trials s →
      attempt problem options bounds s = .ok trial → FaultsWithin allowed
        (Point.complete problem trial.next trial.objective trial.residual none)) :
    P w ∧ FaultsWithin allowed outcome ∧ ∀ report, outcome = .ok report → Q report := by
  cases h with
  | stopped path _ =>
    refine ⟨(hstate path).1, .ok _, fun report hreport ↦ ?_⟩
    cases hreport
    exact (hstate path).2
  | unfinished path => exact ⟨(hstate path).1, nofun, nofun⟩
  | attemptFault path _ proposed =>
    refine ⟨(hstate path).1, ?_, nofun⟩
    rintro cause ⟨⟩
    exact (hattempt path).allowed_of_eq_error proposed
  | moveFailure path _ proposed _ lost =>
    refine ⟨(hattempt path).of_eq_ok proposed, ?_, nofun⟩
    have hfaults := hcomplete path proposed
    rw [moved_eq_error lost] at hfaults
    exact hfaults.error

theorem moved_ne_unfinished : moved problem options s trial ≠ .error .unfinished := fun h ↦
  Point.complete_ne_unfinished (moved_eq_error h)

/-- A round concludes the search, or it leads to a state from which the search goes on. -/
theorem search_round (left : ℕ) (path : Path problem options bounds s₀ trials s)
    (hj : j.iterate = s.point.iterate) :
    (Conclusion problem options bounds s₀ ((search problem options bounds (left + 1) s).run j).1
        ((search problem options bounds (left + 1) s).run j).2.iterate
      ∧ ((search problem options bounds (left + 1) s).run j).1 ≠ .error .unfinished)
    ∨ ∃ trial s' j', Path problem options bounds s₀ (trial :: trials) s'
      ∧ j'.iterate = s'.point.iterate
      ∧ (search problem options bounds (left + 1) s).run j =
        (search problem options bounds left s').run j' := by
  by_cases hstop : problem.stop s.report = true
  · rw [(search_ends_of_stop hstop).1, (search_ends_of_stop hstop).2, hj]
    exact .inl ⟨.stopped path (.inl hstop), nofun⟩
  rw [Bool.not_eq_true] at hstop
  by_cases hradius : s.radius < options.minRadius
  · rw [(search_ends_of_radius hstop hradius).1, (search_ends_of_radius hstop hradius).2, hj]
    exact .inl ⟨.stopped path (.inr hradius), nofun⟩
  have hpropose : Ends (propose problem options bounds s) (noted problem s j)
      (Failure.ofFault (attempt problem options bounds s)) s.point.iterate :=
    hj ▸ propose_ends
  rw [search_run_of_goesOn ⟨hstop, hradius⟩ j]
  cases hproposed : attempt problem options bounds s with
  | error cause =>
    rw [hproposed] at hpropose
    obtain ⟨houtcome, hz⟩ := hpropose.bind_error
    rw [houtcome, hz]
    exact .inl ⟨.attemptFault path ⟨hstop, hradius⟩ hproposed, nofun⟩
  | ok trial =>
    rw [hproposed] at hpropose
    obtain ⟨j₂, hj₂, hrun⟩ := hpropose.continues
    rw [hrun]
    cases htaken : trial.isAccepted options with
    | false =>
      obtain ⟨j₃, hj₃, hrun⟩ := (settle_ends_of_rejected htaken).continues
      exact .inr ⟨trial, _, j₃, .rejected path ⟨hstop, hradius⟩ hproposed htaken, hj₃.trans hj₂,
        hrun⟩
    | true =>
      have hsettle : Ends (settle problem options s trial) j₂ (moved problem options s trial)
          trial.next := settle_ends_of_accepted htaken
      cases hmoved : moved problem options s trial with
      | error failure =>
        have hne : failure ≠ .unfinished := fun h ↦ moved_ne_unfinished (hmoved.trans (h ▸ rfl))
        rw [hmoved] at hsettle
        obtain ⟨houtcome, hz⟩ := hsettle.bind_error
        rw [houtcome, hz]
        exact .inl ⟨.moveFailure path ⟨hstop, hradius⟩ hproposed htaken hmoved,
          fun h ↦ hne (Except.error.inj h)⟩
      | ok s' =>
        rw [hmoved] at hsettle
        obtain ⟨j₃, hj₃, hrun⟩ := hsettle.continues
        exact .inr ⟨trial, s', j₃, .accepted path ⟨hstop, hradius⟩ hproposed htaken hmoved,
          hj₃.trans (Point.iterate_of_complete (moved_eq_ok hmoved).1).symm, hrun⟩

/-- A search that goes on from a state on a path comes to one of the conclusions. -/
theorem search_concludes (left : ℕ) (path : Path problem options bounds s₀ trials s)
    (hj : j.iterate = s.point.iterate) :
    Conclusion problem options bounds s₀ ((search problem options bounds left s).run j).1
      ((search problem options bounds left s).run j).2.iterate := by
  -- The induction is on the rounds that are left. The path from the first state grows with each of
  -- them, so what is concluded is about the same first state throughout.
  induction left generalizing trials s j with
  | zero =>
    change Conclusion problem options bounds s₀ (.error .unfinished) j.iterate
    rw [hj]
    exact .unfinished path
  | succ left ih =>
    obtain ⟨hconcludes, -⟩ | ⟨trial, s', j', path', hj', hrun⟩ := search_round left path hj
    · exact hconcludes
    · rw [hrun]
      exact ih path' hj'

/-- A search that is left unfinished has done all the rounds that it was allowed. -/
theorem exists_path_of_unfinished {left : ℕ} (path : Path problem options bounds s₀ trials s)
    (hj : j.iterate = s.point.iterate)
    (h : ((search problem options bounds left s).run j).1 = .error .unfinished) :
    ∃ trials' s', Path problem options bounds s₀ trials' s'
      ∧ trials'.length = trials.length + left := by
  induction left generalizing trials s j with
  | zero => exact ⟨trials, s, path, rfl⟩
  | succ left ih =>
    obtain ⟨-, hends⟩ | ⟨trial, s', j', path', hj', hrun⟩ := search_round left path hj
    · exact absurd h hends
    · rw [hrun] at h
      obtain ⟨trials', s'', path'', hlength⟩ := ih path' hj' h
      exact ⟨trials', s'', path'', by rw [hlength, List.length_cons]; omega⟩

/-! ## Solves -/

theorem solve_concludes_of_dim (options : TrustRegionOptions α) (hdim : bounds.dim = problem.dim)
    (z v : Vec α) (radius penalty : α) (limit : ℕ) :
    (∃ failure, start problem z v radius penalty = .error failure
      ∧ (solve problem options bounds z v radius penalty limit).1 = .error failure
      ∧ (solve problem options bounds z v radius penalty limit).2.iterate = z)
    ∨ ∃ s₀, start problem z v radius penalty = .ok s₀
      ∧ Conclusion problem options bounds s₀
        (solve problem options bounds z v radius penalty limit).1
        (solve problem options bounds z v radius penalty limit).2.iterate := by
  rw [solve_eq, Fault.require, if_pos hdim]
  cases hs₀ : start problem z v radius penalty with
  | error failure => exact .inl ⟨failure, rfl, rfl, rfl⟩
  | ok s₀ => exact .inr ⟨s₀, rfl, search_concludes limit .start (start_eq_ok hs₀).1.symm⟩

/-- A solve is refused, fails at its first iterate, or searches from there. -/
theorem solve_concludes (problem : InnerProblem α) (options : TrustRegionOptions α)
    (bounds : StepBox α) (z v : Vec α) (radius penalty : α) (limit : ℕ) :
    ((solve problem options bounds z v radius penalty limit).1 = .error (.fault .stepBoundsLength)
      ∧ (solve problem options bounds z v radius penalty limit).2.iterate = z)
    ∨ (∃ failure, start problem z v radius penalty = .error failure
      ∧ (solve problem options bounds z v radius penalty limit).1 = .error failure
      ∧ (solve problem options bounds z v radius penalty limit).2.iterate = z)
    ∨ ∃ s₀, start problem z v radius penalty = .ok s₀
      ∧ Conclusion problem options bounds s₀
        (solve problem options bounds z v radius penalty limit).1
        (solve problem options bounds z v radius penalty limit).2.iterate := by
  by_cases hdim : bounds.dim = problem.dim
  · exact .inr (solve_concludes_of_dim options hdim z v radius penalty limit)
  · rw [solve_eq, Fault.require, if_neg hdim]
    exact .inl ⟨rfl, rfl⟩

theorem solve_eq_ok {limit : ℕ} {report : Report α} {journal : Journal α}
    (h : solve problem options bounds z v radius penalty limit = (.ok report, journal)) :
    ∃ s₀ trials s, start problem z v radius penalty = .ok s₀
      ∧ Path problem options bounds s₀ trials s ∧ report = s.report
      ∧ journal.iterate = s.point.iterate
      ∧ (problem.stop report = true ∨ report.radius < options.minRadius) := by
  have hconcludes := solve_concludes problem options bounds z v radius penalty limit
  rw [h] at hconcludes
  obtain ⟨hrefused, -⟩ | ⟨failure, -, hfailed, -⟩ | ⟨s₀, hs₀, hconclusion⟩ := hconcludes
  · cases hrefused
  · cases hfailed
  dsimp only at hconclusion
  generalize hw : journal.iterate = w at hconclusion ⊢
  cases hconclusion with
  | @stopped trials s path stop => exact ⟨s₀, trials, s, hs₀, path, rfl, rfl, stop⟩

/-- A solve that is left unfinished has done all the rounds that it was allowed. -/
theorem exists_path_of_solve_unfinished {limit : ℕ}
    (h : (solve problem options bounds z v radius penalty limit).1 = .error .unfinished) :
    ∃ s₀ trials s, start problem z v radius penalty = .ok s₀
      ∧ Path problem options bounds s₀ trials s ∧ trials.length = limit := by
  rw [solve_eq, Fault.require] at h
  split at h
  · cases hs₀ : start problem z v radius penalty with
    | error failure =>
      rw [hs₀] at h
      cases h
      exact absurd (start_eq_error hs₀) Point.evaluate_ne_unfinished
    | ok s₀ =>
      rw [hs₀] at h
      obtain ⟨trials, s, path, hlength⟩ :=
        exists_path_of_unfinished .start (start_eq_ok hs₀).1.symm h
      exact ⟨s₀, trials, s, rfl, path, by rw [hlength, List.length_nil, Nat.zero_add]⟩
  · cases h

/-- A solve that has to end at once reports its first state and leaves its iterate. -/
theorem solve_ends_of_start (options : TrustRegionOptions α) (limit : ℕ)
    (hdim : bounds.dim = problem.dim)
    (hs₀ : start problem z v radius penalty = .ok s₀)
    (hends : problem.stop s₀.report = true ∨ s₀.radius < options.minRadius) :
    (solve problem options bounds z v radius penalty (limit + 1)).1 = .ok s₀.report
      ∧ (solve problem options bounds z v radius penalty (limit + 1)).2.iterate = z := by
  rw [solve_eq, Fault.require, if_pos hdim, hs₀]
  change Ends (search problem options bounds (limit + 1) s₀) ⟨z, #[], #[]⟩ (.ok s₀.report) z
  by_cases hstop : problem.stop s₀.report = true
  · exact search_ends_of_stop hstop
  · exact search_ends_of_radius (eq_false_of_ne_true hstop) (hends.resolve_left hstop)

theorem Path.eq_start {cause : Fault} (h : attempt problem options bounds s₀ = .error cause)
    (path : Path problem options bounds s₀ trials s) : s = s₀ := by
  induction path with
  | start => rfl
  | accepted _ _ proposed _ _ ih =>
    rw [ih, h] at proposed
    cases proposed
  | rejected _ _ proposed _ ih =>
    rw [ih, h] at proposed
    cases proposed

/-- A search whose first trial faults ends in this fault, unless no trial is allowed. -/
theorem Conclusion.of_attempt_eq_error {cause : Fault} {w : Vec α}
    {outcome : Except (Failure SolverError) (Report α)}
    (hconclusion : Conclusion problem options bounds s₀ outcome w)
    (hgoing : GoesOn problem options s₀)
    (h : attempt problem options bounds s₀ = .error cause) :
    outcome = .error (.fault cause) ∨ outcome = .error .unfinished := by
  cases hconclusion with
  | stopped path hends =>
    rw [path.eq_start h] at hends
    obtain hstop | hradius := hends
    · exact absurd hstop (ne_true_of_eq_false hgoing.1)
    · exact absurd hradius hgoing.2
  | unfinished => exact .inr rfl
  | attemptFault path _ proposed =>
    rw [path.eq_start h, h] at proposed
    cases proposed
    exact .inl rfl
  | moveFailure path _ proposed =>
    rw [path.eq_start h, h] at proposed
    cases proposed

theorem solve_of_attempt_eq_error {cause : Fault} (limit : ℕ) (hdim : bounds.dim = problem.dim)
    (hs₀ : start problem z v radius penalty = .ok s₀) (hgoing : GoesOn problem options s₀)
    (h : attempt problem options bounds s₀ = .error cause) :
    (solve problem options bounds z v radius penalty limit).1 = .error (.fault cause)
      ∨ (solve problem options bounds z v radius penalty limit).1 = .error .unfinished := by
  obtain ⟨failure, hfailed, -⟩ | ⟨s, hs, hconclusion⟩ :=
    solve_concludes_of_dim options hdim z v radius penalty limit
  · rw [hs₀] at hfailed
    cases hfailed
  · rw [hs₀] at hs
    obtain rfl := Except.ok.inj hs
    exact hconclusion.of_attempt_eq_error hgoing h

end TrustRegion

end LogBarrier
