import LogBarrier.Proofs.TrustRegion.Rounds

/-!
# The states that a solve arrives at

A path says which states can be reached, and leaves out the journals on the way. Here the rounds are
those of a run of `solve` itself: the state and the journal with which it begins, and what its own
`propose` and `settle` make of them, round by round.

## Two descriptions of one thing

A solve that arrives at a state goes on with the search from there (`Arrives.solve_eq`), so whatever
is said of these states is said of the solve. On the other hand the states are those at the ends of
paths (`Arrives.exists_path`, `exists_arrives`), so what holds along all paths holds in every
round.
-/

namespace LogBarrier

variable {α : Type} [Scalar α]

namespace TrustRegion

open Run

variable {problem : InnerProblem α} {options : TrustRegionOptions α} {bounds : StepBox α}
  {z v : Vec α} {radius penalty : α} {s s' s₀ : State α} {trial : Trial α}
  {trials : List (Trial α)} {j j' j'' : Journal α} {limit left : ℕ}

/-! ## The first state -/

theorem start_eq_ok (h : start problem z v radius penalty = .ok s) :
    s.point.iterate = z ∧ s.point.Fresh problem v ∧ s.rounds = 0 := by
  obtain ⟨point, hpoint, h⟩ := bind_eq_ok_iff.mp h
  cases h
  obtain ⟨hz, hfresh⟩ := Point.fresh_of_evaluate hpoint
  exact ⟨hz, hfresh, rfl⟩

theorem radius_of_start (h : start problem z v radius penalty = .ok s) : s.radius = radius := by
  obtain ⟨point, -, h⟩ := bind_eq_ok_iff.mp h
  cases h
  rfl

theorem start_eq_error {failure : Failure SolverError}
    (h : start problem z v radius penalty = .error failure) :
    Point.evaluate problem z v = .error failure := by
  rw [start] at h
  cases hpoint : Point.evaluate problem z v with
  | error failure' =>
    rw [hpoint] at h
    cases h
    rfl
  | ok point =>
    rw [hpoint] at h
    cases h

theorem solve_eq (problem : InnerProblem α) (options : TrustRegionOptions α) (bounds : StepBox α)
    (z v : Vec α) (radius penalty : α) (limit : ℕ) :
    solve problem options bounds z v radius penalty limit =
      (liftM (Fault.stepBoundsLength.require (bounds.dim = problem.dim)) >>= fun _ ↦
        liftM (start problem z v radius penalty) >>= search problem options bounds limit
        : Run α (Report α)).run ⟨z, #[], #[]⟩ := rfl

/-! ## One round -/

/-- In the state, and with the journal, the search goes on and proposes the trial, which leaves it
with the other journal. -/
structure Proposes (problem : InnerProblem α) (options : TrustRegionOptions α)
    (bounds : StepBox α) (s : State α) (j : Journal α) (trial : Trial α) (j' : Journal α) :
    Prop where
  going : GoesOn problem options s
  run : (propose problem options bounds s).run (noted problem s j) = (.ok trial, j')

theorem Proposes.attempt (h : Proposes problem options bounds s j trial j') :
    attempt problem options bounds s = .ok trial ∧ j'.iterate = j.iterate := by
  have hiterate : ((propose problem options bounds s).run (noted problem s j)).2.iterate =
      j.iterate := propose_ends.2
  rw [h.run] at hiterate
  exact ⟨attempt_eq_of_propose (congrArg Prod.fst h.run), hiterate⟩

theorem exists_proposes (going : GoesOn problem options s)
    (proposed : attempt problem options bounds s = .ok trial) (j : Journal α) :
    ∃ j', Proposes problem options bounds s j trial j' := by
  have houtcome : ((propose problem options bounds s).run (noted problem s j)).1 =
      Failure.ofFault (attempt problem options bounds s) := propose_ends.1
  rw [proposed] at houtcome
  exact ⟨_, going, Prod.ext houtcome rfl⟩

/-- What is settled is known without the journal, and the iterate that is left is the one of the
next state. -/
theorem settled_of_run (hj : j.iterate = s.point.iterate)
    (h : (settle problem options s trial).run j = (.ok s', j')) :
    settled problem options s trial = .ok s' ∧ j'.iterate = s'.point.iterate := by
  have houtcome := outcome_settle problem options s trial j
  rw [h] at houtcome
  refine ⟨houtcome.symm, ?_⟩
  by_cases htaken : trial.isAccepted options = true
  · have hends : Ends (settle problem options s trial) j (moved problem options s trial)
        trial.next := settle_ends_of_accepted htaken
    rw [Ends, h] at hends
    exact hends.2.trans (Point.iterate_of_complete (moved_eq_ok hends.1.symm).1).symm
  · rw [Bool.not_eq_true] at htaken
    have hends : Ends (settle problem options s trial) j (.ok (stayed options s trial))
        j.iterate := settle_ends_of_rejected htaken
    rw [Ends, h] at hends
    rw [hends.2, hj, Except.ok.inj hends.1]
    rfl

/-! ## All rounds -/

/-- The solve with the given limit arrives at the state, with the journal and with that many rounds
left. -/
inductive Arrives (problem : InnerProblem α) (options : TrustRegionOptions α) (bounds : StepBox α)
    (z v : Vec α) (radius penalty : α) (limit : ℕ) : ℕ → State α → Journal α → Prop
  | start {s₀ : State α} (begun : start problem z v radius penalty = .ok s₀) :
      Arrives problem options bounds z v radius penalty limit limit s₀ ⟨z, #[], #[]⟩
  | round {left : ℕ} {s s' : State α} {trial : Trial α} {j j' j'' : Journal α}
      (before : Arrives problem options bounds z v radius penalty limit (left + 1) s j)
      (proposed : Proposes problem options bounds s j trial j')
      (settled : (settle problem options s trial).run j' = (.ok s', j'')) :
      Arrives problem options bounds z v radius penalty limit left s' j''

namespace Arrives

/-- **The rounds of a solve.** What a solve arrives at is where it goes on searching. -/
theorem solve_eq (hdim : bounds.dim = problem.dim)
    (h : Arrives problem options bounds z v radius penalty limit left s j) :
    solve problem options bounds z v radius penalty limit =
      (search problem options bounds left s).run j := by
  induction h with
  | start begun =>
    rw [TrustRegion.solve_eq, Fault.require, if_pos hdim, begun]
    rfl
  | round _ proposed settled ih =>
    rw [ih, search_run_of_goesOn proposed.going, run_bind, proposed.run]
    dsimp only
    rw [run_bind, settled]

theorem solve_eq_settle (hdim : bounds.dim = problem.dim)
    (h : Arrives problem options bounds z v radius penalty limit (left + 1) s j)
    (proposed : Proposes problem options bounds s j trial j') :
    solve problem options bounds z v radius penalty limit =
      (settle problem options s trial >>= search problem options bounds left).run j' := by
  rw [h.solve_eq hdim, search_run_of_goesOn proposed.going, run_bind, proposed.run]

theorem exists_accepted (h : Arrives problem options bounds z v radius penalty limit (left + 1) s j)
    (proposed : Proposes problem options bounds s j trial j')
    (taken : trial.isAccepted options = true)
    (hmoved : moved problem options s trial = .ok s') :
    ∃ j'', Arrives problem options bounds z v radius penalty limit left s' j'' := by
  have hends : Ends (settle problem options s trial) j' (moved problem options s trial)
      trial.next := settle_ends_of_accepted taken
  exact ⟨_, h.round proposed (Prod.ext (hends.1.trans hmoved) rfl)⟩

theorem exists_path (h : Arrives problem options bounds z v radius penalty limit left s j) :
    ∃ s₀ trials, TrustRegion.start problem z v radius penalty = .ok s₀
      ∧ Path problem options bounds s₀ trials s ∧ trials.length + left = limit
      ∧ j.iterate = s.point.iterate := by
  induction h with
  | start begun => exact ⟨_, [], begun, .start, Nat.zero_add _, (start_eq_ok begun).1.symm⟩
  | round _ proposed settled ih =>
    obtain ⟨s₀, trials, hs₀, path, hlength, hj⟩ := ih
    obtain ⟨hattempt, hj'⟩ := proposed.attempt
    obtain ⟨hsettled, hj''⟩ := settled_of_run (hj'.trans hj) settled
    exact ⟨s₀, _, hs₀, path_cons_iff.mpr ⟨_, path, proposed.going, hattempt, hsettled⟩,
      by rw [List.length_cons]; omega, hj''⟩

theorem solve_of_stop (hdim : bounds.dim = problem.dim)
    (h : Arrives problem options bounds z v radius penalty limit (left + 1) s j)
    (hstop : problem.stop s.report = true) :
    ∃ journal, solve problem options bounds z v radius penalty limit = (.ok s.report, journal)
      ∧ journal.iterate = s.point.iterate := by
  obtain ⟨-, -, -, -, -, hj⟩ := h.exists_path
  have hends : Ends (search problem options bounds (left + 1) s) j (.ok s.report) j.iterate :=
    search_ends_of_stop hstop
  exact ⟨_, (h.solve_eq hdim).trans (Prod.ext hends.1 rfl), hends.2.trans hj⟩

end Arrives

/-- A solve arrives at the end of each path from its first state, whatever it has left there. -/
theorem exists_arrives (begun : start problem z v radius penalty = .ok s₀)
    (path : Path problem options bounds s₀ trials s) (left : ℕ) :
    ∃ j, Arrives problem options bounds z v radius penalty (trials.length + left) left s j := by
  induction trials generalizing s left with
  | nil =>
    obtain rfl := path_nil_iff.mp path
    rw [List.length_nil, Nat.zero_add]
    exact ⟨_, .start begun⟩
  | cons trial trials ih =>
    obtain ⟨s, path, going, proposed, hsettled⟩ := path_cons_iff.mp path
    obtain ⟨j, before⟩ := ih path (left + 1)
    obtain ⟨j', hproposes⟩ := exists_proposes going proposed j
    rw [← outcome_settle problem options s trial j'] at hsettled
    rw [List.length_cons, Nat.add_right_comm, Nat.add_assoc]
    exact ⟨_, before.round hproposes (Prod.ext hsettled rfl)⟩

/-- Some solve from the iterate makes the trial in the state. -/
def Tries (problem : InnerProblem α) (options : TrustRegionOptions α) (bounds : StepBox α)
    (z v : Vec α) (radius penalty : α) (s : State α) (trial : Trial α) : Prop :=
  ∃ limit left j j', Arrives problem options bounds z v radius penalty limit (left + 1) s j
    ∧ Proposes problem options bounds s j trial j'

/-- The trials are those that can be made at the ends of paths. -/
theorem tries_iff :
    Tries problem options bounds z v radius penalty s trial ↔
      ∃ s₀ trials, start problem z v radius penalty = .ok s₀
        ∧ Path problem options bounds s₀ trials s ∧ GoesOn problem options s
        ∧ attempt problem options bounds s = .ok trial := by
  constructor
  · rintro ⟨limit, left, j, j', arrives, proposed⟩
    obtain ⟨s₀, trials, hs₀, path, -⟩ := arrives.exists_path
    exact ⟨s₀, trials, hs₀, path, proposed.going, proposed.attempt.1⟩
  · rintro ⟨s₀, trials, hs₀, path, going, hattempt⟩
    obtain ⟨j, arrives⟩ := exists_arrives hs₀ path 1
    obtain ⟨j', proposed⟩ := exists_proposes going hattempt j
    exact ⟨_, 0, j, j', arrives, proposed⟩

end TrustRegion

end LogBarrier
