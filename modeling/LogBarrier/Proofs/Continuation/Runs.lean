import LogBarrier.Proofs.Continuation.Reports

/-!
# Runs of a continuation

A run calls the continuation until a call fails or its report is final. So its result is that of a
single call, and every earlier call has succeeded with a report that is not final.
-/

namespace LogBarrier

namespace Continuation

section Frame

variable {α σ ε : Type} [Scalar α] (c : Continuation α σ ε)

theorem frame_step : c.step.2.solver = c.solver ∧ c.step.2.options = c.options
    ∧ c.step.2.bounds = c.bounds := by
  rw [step]
  dsimp only
  split <;> exact ⟨rfl, rfl, rfl⟩

theorem frame_after (n : ℕ) : (c.after n).solver = c.solver ∧ (c.after n).options = c.options
    ∧ (c.after n).bounds = c.bounds := by
  induction n with
  | zero => exact ⟨rfl, rfl, rfl⟩
  | succ n ih =>
    obtain ⟨hsolver, hoptions, hbounds⟩ := frame_step (c.after n)
    exact ⟨hsolver.trans ih.1, hoptions.trans ih.2.1, hbounds.trans ih.2.2⟩

/-- The calls after the first one are those of the continuation that it leaves. -/
theorem after_succ' (n : ℕ) : c.after (n + 1) = c.step.2.after n := by
  induction n with
  | zero => rfl
  | succ n ih => rw [after, ih, after]

end Frame

theorem dim_stepBox {α : Type} [Scalar α] (p : SlackForm α) : (stepBox p).dim = p.dim := by
  rw [StepBox.dim, stepBox, List.length_append, List.length_replicate, List.length_replicate,
    SlackForm.dim]

/-! ## Runs -/

section Runs

variable {α σ ε : Type} [Scalar α] {c c' : Continuation α σ ε} {report : Report α}

/-- The next call succeeds and its report is not final, so that a run goes on after it. -/
def Continues (c : Continuation α σ ε) : Prop :=
  ∃ report, c.step.1 = .ok report ∧ report.isFinal = false

theorem runFrom_of_continues (h : c.Continues) (done limit : ℕ) :
    runFrom (fun _ ↦ Report.isFinal) done (limit + 1) c =
      runFrom (fun _ ↦ Report.isFinal) (done + 1) limit c.step.2 := by
  obtain ⟨report, hreport, hfinal⟩ := h
  have hstep : c.step = (.ok report, c.step.2) := Prod.ext hreport rfl
  rw [runFrom, hstep]
  dsimp only
  rw [if_neg (ne_true_of_eq_false hfinal)]

theorem runFrom_of_not_continues (h : ¬c.Continues) (done limit : ℕ) :
    runFrom (fun _ ↦ Report.isFinal) done (limit + 1) c = c.step := by
  rw [runFrom]
  rcases hstep : c.step with ⟨_ | report, c'⟩
  · rfl
  · have hfinal : report.isFinal = true := by
      by_contra hne
      exact h ⟨report, by rw [hstep], eq_false_of_ne_true hne⟩
    dsimp only
    rw [if_pos hfinal]

theorem runFrom_concludes (c : Continuation α σ ε) (done limit : ℕ) :
    (∃ n < limit, (∀ m < n, (c.after m).Continues) ∧ ¬(c.after n).Continues
      ∧ runFrom (fun _ ↦ Report.isFinal) done limit c = (c.after n).step)
    ∨ (∀ m < limit, (c.after m).Continues)
      ∧ runFrom (fun _ ↦ Report.isFinal) done limit c = (.error .unfinished, c.after limit) := by
  induction limit generalizing c done with
  | zero => exact .inr ⟨fun m hm ↦ (Nat.not_lt_zero m hm).elim, rfl⟩
  | succ limit ih =>
    by_cases h : c.Continues
    · -- The calls of the rest are those of the continuation after one call.
      have hall {k : ℕ} (hrest : ∀ m < k, (c.step.2.after m).Continues) :
          ∀ m < k + 1, (c.after m).Continues := by
        rintro (_ | m) hm
        · exact h
        · rw [after_succ']
          exact hrest m (Nat.lt_of_succ_lt_succ hm)
      rw [runFrom_of_continues h, after_succ']
      obtain ⟨n, hn, hbefore, hends, hrun⟩ | ⟨hbefore, hrun⟩ := ih c.step.2 (done + 1)
      · refine .inl ⟨n + 1, Nat.succ_lt_succ hn, hall hbefore, ?_, ?_⟩
        · rwa [after_succ']
        · rwa [after_succ']
      · exact .inr ⟨hall hbefore, hrun⟩
    · exact .inl ⟨0, Nat.succ_pos limit, fun m hm ↦ (Nat.not_lt_zero m hm).elim, h,
        runFrom_of_not_continues h done limit⟩

/-- A run ends with its first call after which it does not go on, or for lack of calls. -/
theorem run_concludes (c : Continuation α σ ε) (limit : ℕ) :
    (∃ n < limit, (∀ m < n, (c.after m).Continues) ∧ ¬(c.after n).Continues
      ∧ c.run limit = (c.after n).step)
    ∨ (∀ m < limit, (c.after m).Continues)
      ∧ c.run limit = (.error .unfinished, c.after limit) :=
  runFrom_concludes c 0 limit

theorem run_eq_ok {limit : ℕ} (h : c.run limit = (.ok report, c')) :
    ∃ n < limit, (c.after n).step = (.ok report, c') ∧ report.isFinal = true := by
  obtain ⟨n, hn, -, hends, hrun⟩ | ⟨-, hrun⟩ := run_concludes c limit
  · rw [h] at hrun
    refine ⟨n, hn, hrun.symm, ?_⟩
    by_contra hne
    exact hends ⟨report, by rw [← hrun], eq_false_of_ne_true hne⟩
  · rw [h] at hrun
    cases hrun

end Runs

end Continuation

end LogBarrier
