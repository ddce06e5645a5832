import LogBarrier.Proofs.TrustRegion.Conclusions
import Mathlib.Data.List.Chain

/-!
# What a search consults

The reports that are put to the stopping criterion are those on the states of the search, each
reached from the one before it by one round. So what a round does to a state says how successive
reports are related.

The journal is the only place where these reports are kept. Everything between two consultations
leaves this part of it alone.
-/

namespace LogBarrier

variable {α : Type} {β γ : Type}

namespace Run

def Quiet (m : Run α β) : Prop := ∀ j : Journal α, (m.run j).2.consulted = j.consulted

variable {m : Run α β} {f : β → Run α γ}

namespace Quiet

theorem bind (hm : Quiet m) (hf : ∀ b, Quiet (f b)) : Quiet (m >>= f) := by
  intro j
  have hj := hm j
  rw [run_bind]
  rcases hrun : m.run j with ⟨_ | b, j'⟩
  all_goals rw [hrun] at hj
  · exact hj
  · exact (hf b j').trans hj

theorem pure (b : β) : Quiet (Pure.pure b : Run α β) := fun _ ↦ rfl

theorem liftFault (e : Except Fault β) : Quiet (liftM e : Run α β) := fun _ ↦ rfl

theorem liftFailure (e : Except (Failure SolverError) β) : Quiet (liftM e : Run α β) := fun _ ↦ rfl

theorem log (event : Event) : Quiet (Run.log event : Run α Unit) := fun _ ↦ rfl

theorem moveTo (z : Vec α) : Quiet (Run.moveTo z) := fun _ ↦ rfl

theorem ite_log {event : Event} {f : Unit → Run α γ} {condition : Prop} [Decidable condition]
    (hf : Quiet (f ())) : Quiet (if condition then Run.log event >>= f else f ()) := by
  split
  · exact (log event).bind fun _ ↦ hf
  · exact hf

end Quiet

end Run

variable [Scalar α]

namespace TrustRegion

open Run

variable {problem : InnerProblem α} {options : TrustRegionOptions α} {bounds : StepBox α}
  {s s' : State α} {trial : Trial α}

theorem quiet_propose : Quiet (propose problem options bounds s) :=
  (Quiet.liftFault _).bind fun _ ↦ (Quiet.log _).bind fun _ ↦ (Quiet.liftFault _).bind fun _ ↦
    (Quiet.log _).bind fun _ ↦ (Quiet.liftFault _).bind fun _ ↦ Quiet.liftFault _

theorem quiet_settle : Quiet (settle problem options s trial) := by
  refine Quiet.ite_log (Quiet.ite_log ?_)
  split
  · exact (Quiet.moveTo _).bind fun _ ↦ (Quiet.liftFailure _).bind fun _ ↦
      (Quiet.log _).bind fun _ ↦ Quiet.pure _
  · exact (Quiet.log _).bind fun _ ↦ Quiet.pure _

/-! ## Rounds -/

/-- One round of a search leads from the first state to the second. -/
inductive Round (problem : InnerProblem α) (options : TrustRegionOptions α) (bounds : StepBox α)
    (s : State α) : State α → Prop
  | accepted {trial : Trial α} {s' : State α} (going : GoesOn problem options s)
      (proposed : attempt problem options bounds s = .ok trial)
      (taken : trial.isAccepted options = true)
      (arrived : moved problem options s trial = .ok s') : Round problem options bounds s s'
  | rejected {trial : Trial α} (going : GoesOn problem options s)
      (proposed : attempt problem options bounds s = .ok trial)
      (left : trial.isAccepted options = false) :
      Round problem options bounds s (stayed options s trial)

/-- The rest of a round, after the stopping criterion was consulted, consults nothing. It leads to
another state, or the search ends with it. -/
theorem round_of_goesOn (bounds : StepBox α) (left : ℕ) (going : GoesOn problem options s)
    (j : Journal α) :
    (∃ failure j', (propose problem options bounds s >>= fun trial ↦
        settle problem options s trial >>= search problem options bounds left).run j =
          (.error failure, j') ∧ j'.consulted = j.consulted)
    ∨ ∃ s' j', Round problem options bounds s s' ∧ j'.consulted = j.consulted
      ∧ (propose problem options bounds s >>= fun trial ↦
        settle problem options s trial >>= search problem options bounds left).run j =
          (search problem options bounds left s').run j' := by
  have hpropose : ((propose problem options bounds s).run j).1 =
      Failure.ofFault (attempt problem options bounds s) := propose_ends.1
  have hquiet : ((propose problem options bounds s).run j).2.consulted = j.consulted :=
    quiet_propose j
  rw [run_bind]
  rcases hrun : (propose problem options bounds s).run j with ⟨failure | trial, j₁⟩
  · rw [hrun] at hquiet
    exact .inl ⟨failure, j₁, rfl, hquiet⟩
  rw [hrun] at hpropose hquiet
  have proposed := ofFault_eq_ok_iff.mp hpropose.symm
  have hsettled : ((settle problem options s trial).run j₁).2.consulted = j₁.consulted :=
    quiet_settle j₁
  dsimp only
  rw [run_bind]
  by_cases taken : trial.isAccepted options = true
  · have hmoved : ((settle problem options s trial).run j₁).1 = moved problem options s trial :=
      (settle_ends_of_accepted taken).1
    rcases hrun' : (settle problem options s trial).run j₁ with ⟨failure | s', j₂⟩
    · rw [hrun'] at hsettled
      exact .inl ⟨failure, j₂, rfl, hsettled.trans hquiet⟩
    · rw [hrun'] at hmoved hsettled
      exact .inr ⟨s', j₂, .accepted going proposed taken hmoved.symm, hsettled.trans hquiet, rfl⟩
  · rw [Bool.not_eq_true] at taken
    have hstayed : ((settle problem options s trial).run j₁).1 = .ok (stayed options s trial) :=
      (settle_ends_of_rejected taken).1
    rcases hrun' : (settle problem options s trial).run j₁ with ⟨failure | s', j₂⟩
    · rw [hrun'] at hstayed
      cases hstayed
    · rw [hrun'] at hstayed hsettled
      obtain rfl := Except.ok.inj hstayed
      exact .inr ⟨_, j₂, .rejected going proposed taken, hsettled.trans hquiet, rfl⟩

/-- A search consults its criterion with the reports on a chain of states that starts with its
first state. -/
theorem consulted_search (problem : InnerProblem α) (options : TrustRegionOptions α)
    (bounds : StepBox α) (left : ℕ) (s : State α) (j : Journal α) :
    ∃ states : List (State α), states.IsChain (Round problem options bounds)
      ∧ (∀ first ∈ states.head?, first = s)
      ∧ ((search problem options bounds left s).run j).2.consulted.toList =
        j.consulted.toList ++ states.map State.report := by
  -- The induction is on the rounds that are left. Each of them puts its own state in front of the
  -- chain of the next one.
  induction left generalizing s j with
  | zero => exact ⟨[], List.isChain_nil, nofun, (List.append_nil _).symm⟩
  | succ left ih =>
    have hrun : (search problem options bounds (left + 1) s).run j =
        (if problem.stop s.report then pure s.report
        else if s.radius < options.minRadius then do
          Run.log .radiusTooSmall
          return s.report
        else propose problem options bounds s >>= fun trial ↦
          settle problem options s trial >>= search problem options bounds left
          : Run α (Report α)).run (noted problem s j) := by
      rw [search, run_bind]
      rfl
    have hends : [s].IsChain (Round problem options bounds) ∧ (∀ first ∈ [s].head?, first = s)
        ∧ (noted problem s j).consulted.toList = j.consulted.toList ++ [s].map State.report :=
      ⟨List.isChain_singleton s, by simp, Array.toList_push⟩
    rw [hrun]
    by_cases hstop : problem.stop s.report = true
    · rw [if_pos hstop]
      exact ⟨[s], hends⟩
    rw [if_neg hstop]
    by_cases hradius : s.radius < options.minRadius
    · rw [if_pos hradius]
      exact ⟨[s], hends⟩
    rw [if_neg hradius]
    obtain ⟨failure, j', hfailed, hj'⟩ | ⟨s', j', hround, hj', hgoes⟩ :=
      round_of_goesOn bounds left ⟨eq_false_of_ne_true hstop, hradius⟩
        (noted problem s j)
    · rw [hfailed, hj']
      exact ⟨[s], hends⟩
    · obtain ⟨states, hchain, hfirst, hconsulted⟩ := ih s' j'
      refine ⟨s :: states, List.isChain_cons.mpr ⟨fun first h ↦ ?_, hchain⟩, by simp, ?_⟩
      · rw [hfirst first h]
        exact hround
      · rw [hgoes, hconsulted, hj', hends.2.2, List.append_assoc]
        rfl

/-- A solve consults its criterion with the reports on a chain of states that starts with the first
one, or it consults nothing. -/
theorem consulted_solve (problem : InnerProblem α) (options : TrustRegionOptions α)
    (bounds : StepBox α) (z v : Vec α) (radius penalty : α) (limit : ℕ) :
    ∃ states : List (State α), states.IsChain (Round problem options bounds)
      ∧ (∀ first ∈ states.head?, start problem z v radius penalty = .ok first)
      ∧ (solve problem options bounds z v radius penalty limit).2.consulted.toList =
        states.map State.report := by
  have hnone (e : Except (Failure SolverError) (State α)) :
      ∀ first ∈ ([] : List (State α)).head?, e = .ok first := by
    intro first h
    cases h
  rw [solve_eq, Fault.require]
  split
  · cases hs₀ : start problem z v radius penalty with
    | error failure => exact ⟨[], List.isChain_nil, hnone _, rfl⟩
    | ok s₀ =>
      obtain ⟨states, hchain, hfirst, hconsulted⟩ :=
        consulted_search problem options bounds limit s₀ ⟨z, #[], #[]⟩
      exact ⟨states, hchain, fun first h ↦ congrArg Except.ok (hfirst first h).symm, hconsulted⟩
  · exact ⟨[], List.isChain_nil, hnone _, rfl⟩

end TrustRegion

end LogBarrier
