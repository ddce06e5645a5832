import LogBarrier.Proofs.TrustRegion.Radius

/-!
# Searches are determined

Each round of a search is a function of the state at its start. So the paths from a state are the
initial parts of a single one, and of two of them the longer one continues the shorter one.
-/

namespace LogBarrier

namespace TrustRegion

open Run

variable {α : Type} [Scalar α] {problem : InnerProblem α} {options : TrustRegionOptions α}
  {bounds : StepBox α} {s s' s₀ s₁ s₂ : State α} {trial : Trial α}
  {trials trials₁ trials₂ : List (Trial α)}

theorem radius_of_settled (h : settled problem options s trial = .ok s') :
    s'.radius = trial.nextRadius options s.radius := by
  by_cases htaken : trial.isAccepted options = true
  · rw [settled_of_accepted htaken] at h
    exact radius_of_moved h
  · rw [Bool.not_eq_true] at htaken
    rw [settled_of_rejected htaken] at h
    obtain rfl := Except.ok.inj h
    rfl

/-- Of two paths from the same state, the longer one continues the shorter one. -/
theorem Path.exists_append (path₂ : Path problem options bounds s₀ trials₂ s₂)
    (path₁ : Path problem options bounds s₀ trials₁ s₁) (hle : trials₁.length ≤ trials₂.length) :
    ∃ trials, trials₂ = trials ++ trials₁ ∧ Path problem options bounds s₁ trials s₂ := by
  induction trials₂ generalizing trials₁ s₁ s₂ with
  | nil =>
    obtain rfl := List.eq_nil_of_length_eq_zero (Nat.le_zero.mp hle)
    obtain rfl := path_nil_iff.mp path₁
    exact ⟨[], rfl, path₂⟩
  | cons trial₂ trials₂ ih =>
    obtain ⟨s, path, going, proposed, hsettled⟩ := path_cons_iff.mp path₂
    by_cases hshort : trials₁.length ≤ trials₂.length
    · obtain ⟨trials, rfl, hpath⟩ := ih path path₁ hshort
      exact ⟨trial₂ :: trials, rfl, path_cons_iff.mpr ⟨s, hpath, going, proposed, hsettled⟩⟩
    -- The two paths are equally long, so they had the same state before their last rounds.
    obtain _ | ⟨trial₁, trials₁⟩ := trials₁
    · exact absurd (Nat.zero_le _) hshort
    simp only [List.length_cons] at hle hshort
    obtain ⟨s', path', -, proposed', hsettled'⟩ := path_cons_iff.mp path₁
    obtain ⟨trials, htrials, hpath⟩ := ih path path' (by omega)
    have hlength := congrArg List.length htrials
    rw [List.length_append] at hlength
    obtain rfl := List.eq_nil_of_length_eq_zero (l := trials) (by omega)
    obtain rfl := path_nil_iff.mp hpath
    obtain rfl := Except.ok.inj (proposed.symm.trans proposed')
    obtain rfl := Except.ok.inj (hsettled.symm.trans hsettled')
    exact ⟨[], congrArg _ htrials, .start⟩

end TrustRegion

end LogBarrier
