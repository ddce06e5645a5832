import LogBarrier.Proofs.TrustRegion.Judgement
import LogBarrier.TrustRegion.Search
import Mathlib.Data.Nat.Notation

/-!
# Rounds of the trust region method

A search writes a journal, but it never reads one. So every run of it follows a path of rounds that
can be stated without a journal, and what a search does is an induction on its path.
-/

namespace LogBarrier

variable {α : Type} {β γ : Type}

/-! ## Runs without their journals -/

namespace Run

/-- The run ends with the outcome and leaves the iterate. -/
def Ends (m : Run α β) (j : Journal α) (outcome : Except (Failure SolverError) β) (z : Vec α) :
    Prop :=
  (m.run j).1 = outcome ∧ (m.run j).2.iterate = z

variable {m : Run α β} {f : β → Run α γ} {j : Journal α} {z w : Vec α}
  {outcome : Except (Failure SolverError) γ}

theorem run_bind (m : Run α β) (f : β → Run α γ) (j : Journal α) :
    (m >>= f).run j = match m.run j with
      | (.ok b, j') => (f b).run j'
      | (.error failure, j') => (.error failure, j') := by
  change ExceptT.bindCont f (m.run j).1 (m.run j).2 = _
  rcases m.run j with ⟨_ | _, j'⟩ <;> rfl

namespace Ends

theorem continues {b : β} (hm : Ends m j (.ok b) w) :
    ∃ j', j'.iterate = w ∧ (m >>= f).run j = (f b).run j' := by
  obtain ⟨hb, hw⟩ := hm
  refine ⟨(m.run j).2, hw, ?_⟩
  rw [run_bind]
  rcases hj : m.run j with ⟨_ | b', j'⟩
  · rw [hj] at hb
    cases hb
  · rw [hj] at hb
    cases hb
    rfl

theorem bind {b : β} (hm : Ends m j (.ok b) w)
    (hf : ∀ j', j'.iterate = w → Ends (f b) j' outcome z) : Ends (m >>= f) j outcome z := by
  obtain ⟨j', hj', hrun⟩ := hm.continues
  rw [Ends, hrun]
  exact hf j' hj'

theorem bind_error {failure : Failure SolverError} (hm : Ends m j (.error failure) z) :
    Ends (m >>= f) j (.error failure) z := by
  obtain ⟨hb, hw⟩ := hm
  rw [Ends, run_bind]
  rcases hj : m.run j with ⟨failure' | b', j'⟩
  · rw [hj] at hb hw
    cases hb
    exact ⟨rfl, hw⟩
  · rw [hj] at hb
    cases hb

theorem pure (b : β) (j : Journal α) : Ends (Pure.pure b) j (.ok b) j.iterate := ⟨rfl, rfl⟩

theorem liftFault (e : Except Fault β) (j : Journal α) :
    Ends (liftM e : Run α β) j (Failure.ofFault e) j.iterate := ⟨rfl, rfl⟩

theorem liftFailure (e : Except (Failure SolverError) β) (j : Journal α) :
    Ends (liftM e : Run α β) j e j.iterate := ⟨rfl, rfl⟩

theorem log (event : Event) (j : Journal α) : Ends (Run.log event) j (.ok ()) j.iterate :=
  ⟨rfl, rfl⟩

theorem moveTo (z : Vec α) (j : Journal α) : Ends (Run.moveTo z) j (.ok ()) z := ⟨rfl, rfl⟩

theorem consult (problem : InnerProblem α) (report : Report α) (j : Journal α) :
    Ends (Run.consult problem report) j (.ok (problem.stop report)) j.iterate := ⟨rfl, rfl⟩

/-- A lifted computation that is followed by a run which only lifts as well. -/
theorem liftFault_bind {e : Except Fault β} {g : β → Except Fault γ}
    (hf : ∀ b j', j'.iterate = j.iterate → Ends (f b) j' (Failure.ofFault (g b)) j.iterate) :
    Ends (liftM e >>= f) j (Failure.ofFault (e >>= g)) j.iterate := by
  cases e with
  | error cause => exact (liftFault (.error cause) j).bind_error
  | ok b => exact (liftFault (.ok b) j).bind (hf b)

/-- What follows a lifted computation may keep its value. -/
theorem liftFailure_keep {e : Except (Failure SolverError) β} {f : β → Run α β}
    (hf : ∀ b j', j'.iterate = j.iterate → Ends (f b) j' (.ok b) j.iterate) :
    Ends (liftM e >>= f) j e j.iterate := by
  cases e with
  | error failure => exact (liftFailure (.error failure) j).bind_error
  | ok b => exact (liftFailure (.ok b) j).bind (hf b)

theorem log_bind {event : Event} {f : Unit → Run α γ}
    (hf : ∀ j', j'.iterate = j.iterate → Ends (f ()) j' outcome z) :
    Ends (Run.log event >>= f) j outcome z := (log event j).bind hf

/-- What is written to the journal on some condition does not matter. -/
theorem ite_log {event : Event} {f : Unit → Run α γ} {condition : Prop} [Decidable condition]
    (hf : ∀ j', j'.iterate = j.iterate → Ends (f ()) j' outcome z) :
    Ends (if condition then Run.log event >>= f else f ()) j outcome z := by
  split
  · exact log_bind hf
  · exact hf j rfl

end Ends

end Run

variable [Scalar α]

namespace TrustRegion

open Run

/-! ## The parts of a round -/

variable {problem : InnerProblem α} {options : TrustRegionOptions α} {bounds : StepBox α}
  {s s' s₀ : State α} {trial : Trial α} {trials : List (Trial α)} {j : Journal α}

theorem attempt_eq_ok (h : attempt problem options bounds s = .ok trial) :
    ∃ normal tangential, Trial.normalStep options bounds s.point s.radius = .ok normal
      ∧ Trial.tangentialStep bounds s.point s.radius normal.1 = .ok tangential
      ∧ Vec.add normal.1 tangential.1 = .ok trial.step ∧ trial.Evaluated problem s.point
      ∧ trial.Judged options s.point s.penalty := by
  obtain ⟨normal, hnormal, h⟩ := bind_eq_ok_iff.mp h
  obtain ⟨-, -, h⟩ := bind_eq_ok_iff.mp h
  obtain ⟨tangential, htangential, h⟩ := bind_eq_ok_iff.mp h
  obtain ⟨-, -, h⟩ := bind_eq_ok_iff.mp h
  obtain ⟨step, hstep, h⟩ := bind_eq_ok_iff.mp h
  obtain ⟨rfl, hevaluated, hjudged⟩ := Trial.evaluate_eq_ok h
  exact ⟨normal, tangential, hnormal, htangential, hstep, hevaluated, hjudged⟩

theorem evaluated_of_attempt (h : attempt problem options bounds s = .ok trial) :
    trial.Evaluated problem s.point := by
  obtain ⟨_, _, -, -, -, hevaluated, -⟩ := attempt_eq_ok h
  exact hevaluated

theorem judged_of_attempt (h : attempt problem options bounds s = .ok trial) :
    trial.Judged options s.point s.penalty := by
  obtain ⟨_, _, -, -, -, -, hjudged⟩ := attempt_eq_ok h
  exact hjudged

/-- The point of the state after an accepted trial is that of the trial. -/
theorem moved_eq_ok (h : moved problem options s trial = .ok s') :
    Point.complete problem trial.next trial.objective trial.residual none = .ok s'.point
      ∧ s'.rounds = s.rounds + 1 := by
  obtain ⟨point, hpoint, h⟩ := bind_eq_ok_iff.mp h
  cases h
  exact ⟨hpoint, rfl⟩

theorem moved_eq_error {failure : Failure SolverError}
    (h : moved problem options s trial = .error failure) :
    Point.complete problem trial.next trial.objective trial.residual none = .error failure := by
  rw [moved] at h
  cases hpoint : Point.complete problem trial.next trial.objective trial.residual none with
  | error failure' =>
    rw [hpoint] at h
    cases h
    rfl
  | ok point =>
    rw [hpoint] at h
    cases h

theorem propose_ends :
    Ends (propose problem options bounds s) j
      (Failure.ofFault (attempt problem options bounds s)) j.iterate := by
  refine Ends.liftFault_bind fun ⟨normal, kind⟩ j₁ h₁ ↦ Ends.log_bind fun j₂ h₂ ↦ ?_
  rw [← h₁, ← h₂]
  refine Ends.liftFault_bind fun ⟨tangential, report⟩ j₃ h₃ ↦ Ends.log_bind fun j₄ h₄ ↦ ?_
  rw [← h₃, ← h₄]
  refine Ends.liftFault_bind fun step j₅ h₅ ↦ ?_
  rw [← h₅]
  exact Ends.liftFault _ j₅

theorem attempt_eq_of_propose (h : ((propose problem options bounds s).run j).1 = .ok trial) :
    attempt problem options bounds s = .ok trial :=
  ofFault_eq_ok_iff.mp (propose_ends.1.symm.trans h)

theorem settle_ends_of_accepted (h : trial.isAccepted options = true) :
    Ends (settle problem options s trial) j (moved problem options s trial) trial.next := by
  refine Ends.ite_log fun j₁ _ ↦ Ends.ite_log fun j₂ _ ↦ ?_
  rw [if_pos h]
  refine (Ends.moveTo trial.next j₂).bind fun j₃ h₃ ↦ ?_
  rw [← h₃]
  refine Ends.liftFailure_keep fun next j₄ h₄ ↦ Ends.log_bind fun j₅ h₅ ↦ ?_
  rw [← h₄, ← h₅]
  exact Ends.pure _ j₅

theorem settle_ends_of_rejected (h : trial.isAccepted options = false) :
    Ends (settle problem options s trial) j (.ok (stayed options s trial)) j.iterate := by
  refine Ends.ite_log fun j₁ h₁ ↦ Ends.ite_log fun j₂ h₂ ↦ ?_
  rw [if_neg (ne_true_of_eq_false h)]
  refine Ends.log_bind fun j₃ h₃ ↦ ?_
  rw [← h₁, ← h₂, ← h₃]
  exact Ends.pure _ j₃

/-- What a round makes of its trial. -/
def settled (problem : InnerProblem α) (options : TrustRegionOptions α) (s : State α)
    (trial : Trial α) : Except (Failure SolverError) (State α) :=
  if trial.isAccepted options then moved problem options s trial else .ok (stayed options s trial)

theorem settled_of_accepted (taken : trial.isAccepted options = true) :
    settled problem options s trial = moved problem options s trial := if_pos taken

theorem settled_of_rejected (left : trial.isAccepted options = false) :
    settled problem options s trial = .ok (stayed options s trial) :=
  if_neg (ne_true_of_eq_false left)

theorem outcome_settle (problem : InnerProblem α) (options : TrustRegionOptions α) (s : State α)
    (trial : Trial α) (j : Journal α) :
    ((settle problem options s trial).run j).1 = settled problem options s trial := by
  by_cases h : trial.isAccepted options = true
  · rw [(settle_ends_of_accepted h).1, settled_of_accepted h]
  · rw [Bool.not_eq_true] at h
    rw [(settle_ends_of_rejected h).1, settled_of_rejected h]

/-! ## Paths of rounds -/

/-- Whether a search does a round in the state. -/
def GoesOn (problem : InnerProblem α) (options : TrustRegionOptions α) (s : State α) : Prop :=
  problem.stop s.report = false ∧ ¬s.radius < options.minRadius

/-- The state is reached from the first one by rounds with the given trials, the last trial being
the head of the list. -/
inductive Path (problem : InnerProblem α) (options : TrustRegionOptions α) (bounds : StepBox α)
    (s₀ : State α) : List (Trial α) → State α → Prop
  | start : Path problem options bounds s₀ [] s₀
  | accepted {trials : List (Trial α)} {s s' : State α} {trial : Trial α}
      (path : Path problem options bounds s₀ trials s) (going : GoesOn problem options s)
      (proposed : attempt problem options bounds s = .ok trial)
      (taken : trial.isAccepted options = true)
      (arrived : moved problem options s trial = .ok s') :
      Path problem options bounds s₀ (trial :: trials) s'
  | rejected {trials : List (Trial α)} {s : State α} {trial : Trial α}
      (path : Path problem options bounds s₀ trials s) (going : GoesOn problem options s)
      (proposed : attempt problem options bounds s = .ok trial)
      (left : trial.isAccepted options = false) :
      Path problem options bounds s₀ (trial :: trials) (stayed options s trial)

def lastAccepted (options : TrustRegionOptions α) (trials : List (Trial α)) : Option (Trial α) :=
  trials.find? (·.isAccepted options)

theorem lastAccepted_cons_of_accepted (h : trial.isAccepted options = true) :
    lastAccepted options (trial :: trials) = some trial := List.find?_cons_of_pos h

theorem lastAccepted_cons_of_rejected (h : trial.isAccepted options = false) :
    lastAccepted options (trial :: trials) = lastAccepted options trials :=
  List.find?_cons_of_neg (ne_true_of_eq_false h)

namespace Path

theorem rounds (path : Path problem options bounds s₀ trials s) :
    s.rounds = s₀.rounds + trials.length := by
  induction path with
  | start => rfl
  | accepted _ _ _ _ arrived ih =>
    rw [(moved_eq_ok arrived).2, ih, List.length_cons, Nat.add_assoc]
  | rejected _ _ _ _ ih => rw [stayed, ih, List.length_cons, Nat.add_assoc]

/-- The iterate has been moved by the accepted trials only. -/
theorem iterate (path : Path problem options bounds s₀ trials s) :
    s.point.iterate = ((lastAccepted options trials).map Trial.next).getD s₀.point.iterate := by
  induction path with
  | start => rfl
  | accepted _ _ _ taken arrived ih =>
    rw [lastAccepted_cons_of_accepted taken]
    exact Point.iterate_of_complete (moved_eq_ok arrived).1
  | rejected _ _ _ left ih =>
    rw [lastAccepted_cons_of_rejected left]
    exact ih

/-- The point of every state is fresh. Its Hessian belongs to the given multipliers until a trial is
accepted and to its own ones afterwards. -/
theorem fresh {v : Vec α} (path : Path problem options bounds s₀ trials s)
    (h₀ : s₀.point.Fresh problem v) :
    s.point.Fresh problem ((lastAccepted options trials).elim v fun _ ↦ s.point.multipliers) := by
  induction path with
  | start => exact h₀
  | accepted _ _ proposed taken arrived ih =>
    rw [lastAccepted_cons_of_accepted taken]
    obtain ⟨-, hobjective, hresidual⟩ := evaluated_of_attempt proposed
    exact (Point.fresh_of_complete hobjective hresidual (moved_eq_ok arrived).1).2
  | rejected _ _ _ left ih =>
    rw [lastAccepted_cons_of_rejected left]
    exact ih

end Path

theorem path_nil_iff : Path problem options bounds s₀ [] s ↔ s = s₀ := by
  constructor
  · rintro ⟨⟩
    rfl
  · rintro rfl
    exact .start

theorem path_cons_iff :
    Path problem options bounds s₀ (trial :: trials) s' ↔
      ∃ s, Path problem options bounds s₀ trials s ∧ GoesOn problem options s
        ∧ attempt problem options bounds s = .ok trial
        ∧ settled problem options s trial = .ok s' := by
  constructor
  · intro path
    cases path with
    | accepted path going proposed taken arrived =>
      exact ⟨_, path, going, proposed, (settled_of_accepted taken).trans arrived⟩
    | rejected path going proposed left =>
      exact ⟨_, path, going, proposed, settled_of_rejected left⟩
  · rintro ⟨s, path, going, proposed, hsettled⟩
    by_cases h : trial.isAccepted options = true
    · exact .accepted path going proposed h ((settled_of_accepted h).symm.trans hsettled)
    · rw [Bool.not_eq_true] at h
      rw [settled_of_rejected h] at hsettled
      obtain rfl := Except.ok.inj hsettled
      exact .rejected path going proposed h

/-! ## One round of a search -/

theorem search_ends_of_stop {left : ℕ} (hstop : problem.stop s.report = true) :
    Ends (search problem options bounds (left + 1) s) j (.ok s.report) j.iterate := by
  rw [search]
  refine (Ends.consult problem s.report j).bind fun j₁ h₁ ↦ ?_
  rw [if_pos hstop, ← h₁]
  exact Ends.pure _ j₁

theorem search_ends_of_radius {left : ℕ} (hstop : problem.stop s.report = false)
    (hradius : s.radius < options.minRadius) :
    Ends (search problem options bounds (left + 1) s) j (.ok s.report) j.iterate := by
  rw [search]
  refine (Ends.consult problem s.report j).bind fun j₁ h₁ ↦ ?_
  rw [if_neg (ne_true_of_eq_false hstop), if_pos hradius]
  refine Ends.log_bind fun j₂ h₂ ↦ ?_
  rw [← h₁, ← h₂]
  exact Ends.pure _ j₂

/-- The journal with which a round begins, the stopping criterion having been consulted. -/
def noted (problem : InnerProblem α) (s : State α) (j : Journal α) : Journal α :=
  ((Run.consult problem s.report).run j).2

/-- Any other search does a round and goes on. -/
theorem search_run_of_goesOn {left : ℕ} (hgoing : GoesOn problem options s) (j : Journal α) :
    (search problem options bounds (left + 1) s).run j =
      (propose problem options bounds s >>= fun trial ↦
        settle problem options s trial >>= search problem options bounds left).run
          (noted problem s j) := by
  have hconsult : (Run.consult problem s.report).run j = (.ok false, noted problem s j) :=
    congrArg (fun stop ↦ (Except.ok stop, noted problem s j)) hgoing.1
  rw [search, run_bind, hconsult]
  dsimp only
  rw [if_neg Bool.false_ne_true, if_neg hgoing.2]

end TrustRegion

end LogBarrier
