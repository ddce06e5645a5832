import LogBarrier.Proofs.Continuation.Runs

/-!
# Histories of a continuation

The calls of a continuation may succeed and fail in any order, and any solver may answer them. What
the continuation then holds, except for its iterate, follows from its setup and from its record, the
reports of the inner solver in the calls that succeeded.

## The record

A call that succeeds appends its inner report to the record, and a call that fails leaves the record
as it is. Each piece of the state is a function of the record: the levels depend on its length, the
number of iterations on its sum, and the multipliers and the radius on its last report. So the
pieces change together, or not at all.
-/

namespace LogBarrier

open Scalar

/-- The initial level after some decays. -/
def ContinuationSetup.levelAfter {α : Type} [Scalar α] (setup : ContinuationSetup α) (k : ℕ) :
    Level α :=
  ⟨(· * Continuation.decayRatio)^[k] setup.options.initialParameter,
    (· * Continuation.decayRatio)^[k] setup.options.initialTolerance⟩

theorem ContinuationSetup.levelAfter_succ {α : Type} [Scalar α] (setup : ContinuationSetup α)
    (k : ℕ) : setup.levelAfter (k + 1) = (setup.levelAfter k).decay Continuation.decayRatio := by
  rw [levelAfter, Function.iterate_succ_apply', Function.iterate_succ_apply']
  rfl

/-- The reports with the iterations of all the solves up to each of them. -/
def Report.totals {α : Type} (record : List (Report α)) : List (Report α) :=
  record.mapIdx fun i report ↦
    { report with iterations := ((record.take (i + 1)).map Report.iterations).sum }

theorem Report.totals_concat {α : Type} (record : List (Report α)) (report : Report α) :
    Report.totals (record ++ [report]) = Report.totals record ++
      [{ report with
        iterations := (record.map Report.iterations).sum + report.iterations }] := by
  rw [totals, List.mapIdx_concat]
  refine congrArg₂ (· ++ ·) (List.mapIdx_eq_mapIdx_iff.mpr fun i hi ↦ ?_) ?_
  · -- The reports up to an earlier one are not changed by the new one.
    rw [List.take_append_of_le_length (Nat.succ_le_of_lt hi)]
  · rw [List.take_of_length_le (by rw [List.length_append, List.length_singleton]),
      List.map_append, List.sum_append, List.map_singleton, List.sum_singleton]

namespace Continuation

section History

variable {α σ ε : Type} [Scalar α]

/-! ## Calls -/

def answer (c : Continuation α σ ε) : InnerAnswer α ε := (c.solver.solve c.task c.solverState).1

/-- The inner report of the next call, if it succeeds. -/
def innerReport (c : Continuation α σ ε) : Option (Report α) := c.answer.outcome.toOption

theorem solve_eq_answer (c : Continuation α σ ε) {outcome : Except (Failure ε) (Report α)}
    (h : c.answer.outcome = outcome) : c.solver.solve c.task c.solverState =
      (⟨outcome, c.answer.iterate⟩, (c.solver.solve c.task c.solverState).2) := by
  rw [← h]
  rfl

theorem step_of_answer_ok {c : Continuation α σ ε} {report : Report α}
    (h : c.answer.outcome = .ok report) :
    c.step = (.ok (c.controls.accumulate report),
      { c with
        solverState := (c.solver.solve c.task c.solverState).2
        iterate := c.answer.iterate
        solvedLevel := some c.controls.level
        controls := c.controls.next report c.options.initialRadius }) := by
  rw [step, c.solve_eq_answer h]

theorem step_of_answer_error {c : Continuation α σ ε} {failure : Failure ε}
    (h : c.answer.outcome = .error failure) :
    c.step = (.error failure,
      { c with
        solverState := (c.solver.solve c.task c.solverState).2
        iterate := c.answer.iterate }) := by
  rw [step, c.solve_eq_answer h]

/-- A call that fails moves the iterate, and the solver may change its own state. -/
theorem step_of_error {c : Continuation α σ ε} {failure : Failure ε}
    (h : c.step.1 = .error failure) :
    ∃ z s, c.step.2 = { c with iterate := z, solverState := s } := by
  cases hanswer : c.answer.outcome with
  | error inner =>
    rw [step_of_answer_error hanswer]
    exact ⟨_, _, rfl⟩
  | ok report =>
    rw [step_of_answer_ok hanswer] at h
    cases h

/-! ## The record -/

/-- The inner reports of the calls that succeed among the first `n`. -/
def record (c : Continuation α σ ε) (n : ℕ) : List (Report α) :=
  (List.range n).filterMap fun m ↦ (c.after m).innerReport

/-- The results of the calls that succeed among the first `n`. -/
def returned (c : Continuation α σ ε) (n : ℕ) : List (Report α) :=
  (List.range n).filterMap fun m ↦ (c.after m).step.1.toOption

theorem record_succ (c : Continuation α σ ε) (n : ℕ) :
    c.record (n + 1) = c.record n ++ (c.after n).innerReport.toList := by
  rw [record, List.range_succ, List.filterMap_append, List.filterMap_cons, List.filterMap_nil]
  cases (c.after n).innerReport <;> rfl

theorem returned_succ (c : Continuation α σ ε) (n : ℕ) :
    c.returned (n + 1) = c.returned n ++ (c.after n).step.1.toOption.toList := by
  rw [returned, List.range_succ, List.filterMap_append, List.filterMap_cons, List.filterMap_nil]
  cases (c.after n).step.1.toOption <;> rfl

/-- What a continuation holds when the calls that succeeded had the given inner reports. -/
structure Holds (setup : ContinuationSetup α) (record : List (Report α))
    (c : Continuation α σ ε) : Prop where
  level : c.controls.level = setup.levelAfter record.length
  solvedLevel : c.solvedLevel =
    if record.length = 0 then none else some (setup.levelAfter (record.length - 1))
  iterations : c.controls.iterations = (record.map Report.iterations).sum
  multipliers : some c.controls.multipliers =
    (record.getLast?.map Report.multipliers).or setup.multipliers
  radius : c.controls.radius =
    (record.getLast?.map fun report ↦
      maxNum setup.options.initialRadius (radiusGrowth * report.radius)).getD
        setup.options.initialRadius

variable {setup : ContinuationSetup α} {solver : InnerSolver α σ ε} {state : σ}
  {c : Continuation α σ ε} {record : List (Report α)}

theorem solvedLevel_of_ofSetup (h : ofSetup setup solver state = .ok c) :
    c.solvedLevel = none := by
  rw [ofSetup] at h
  split at h
  next v hv =>
    obtain ⟨_, -, h⟩ := bind_eq_ok_iff.mp h
    obtain ⟨_, -, h⟩ := bind_eq_ok_iff.mp h
    obtain ⟨_, -, h⟩ := bind_eq_ok_iff.mp h
    obtain ⟨_, -, h⟩ := bind_eq_ok_iff.mp h
    cases h
    rfl
  next => cases h

theorem holds_of_ofSetup (h : ofSetup setup solver state = .ok c) : Holds setup [] c := by
  have hbuilt := built_of_ofSetup h
  exact {
    level := by
      rw [List.length_nil, ContinuationSetup.levelAfter, Function.iterate_zero_apply,
        Function.iterate_zero_apply, ← hbuilt.parameter, ← hbuilt.tolerance]
    solvedLevel := solvedLevel_of_ofSetup h
    iterations := hbuilt.iterations
    multipliers := hbuilt.multipliers.symm
    radius := hbuilt.radius }

theorem Holds.step_ok (h : Holds setup record c) (hoptions : c.options = setup.options)
    {report : Report α} (hreport : c.answer.outcome = .ok report) :
    Holds setup (record ++ [report]) c.step.2 := by
  rw [step_of_answer_ok hreport]
  have hlength : (record ++ [report]).length = record.length + 1 := by
    rw [List.length_append, List.length_singleton]
  constructor
  · rw [hlength, setup.levelAfter_succ, ← h.level]
    rfl
  · rw [hlength, if_neg (Nat.succ_ne_zero _), Nat.add_sub_cancel, ← h.level]
  · rw [List.map_append, List.sum_append, ← h.iterations, List.map_singleton, List.sum_singleton]
    rfl
  · rw [List.getLast?_concat]
    rfl
  · rw [List.getLast?_concat, ← hoptions]
    rfl

theorem Holds.step_error (h : Holds setup record c) {failure : Failure ε}
    (hfailure : c.answer.outcome = .error failure) : Holds setup record c.step.2 := by
  rw [step_of_answer_error hfailure]
  exact ⟨h.level, h.solvedLevel, h.iterations, h.multipliers, h.radius⟩

theorem Holds.step (h : Holds setup record c) (hoptions : c.options = setup.options) :
    Holds setup (record ++ c.innerReport.toList) c.step.2 := by
  rw [innerReport]
  cases hanswer : c.answer.outcome with
  | ok report => exact h.step_ok hoptions hanswer
  | error failure =>
    rw [Except.toOption, Option.toList_none, List.append_nil]
    exact h.step_error hanswer

theorem Holds.after (h : Holds setup [] c) (hoptions : c.options = setup.options) (n : ℕ) :
    Holds setup (c.record n) (c.after n) := by
  induction n with
  | zero => exact h
  | succ n ih =>
    rw [record_succ]
    exact ih.step ((c.frame_after n).2.1.trans hoptions)

theorem Holds.level_eq_decay (h : Holds setup record c) {level : Level α}
    (hlevel : c.solvedLevel = some level) : c.controls.level = level.decay decayRatio := by
  rw [h.solvedLevel] at hlevel
  split at hlevel
  next => cases hlevel
  next hne =>
    cases hlevel
    rw [h.level, ← setup.levelAfter_succ, Nat.sub_one_add_one hne]

/-- The results are the inner reports, with the iterations of all the solves before. -/
theorem returned_eq_totals (h : Holds setup [] c) (hoptions : c.options = setup.options) (n : ℕ) :
    c.returned n = Report.totals (c.record n) := by
  induction n with
  | zero => rfl
  | succ n ih =>
    rw [returned_succ, record_succ, ih, innerReport]
    cases hanswer : (c.after n).answer.outcome with
    | error failure =>
      rw [step_of_answer_error hanswer]
      dsimp only [Except.toOption, Option.toList_none]
      rw [List.append_nil, List.append_nil]
    | ok report =>
      rw [step_of_answer_ok hanswer]
      dsimp only [Except.toOption, Option.toList_some]
      rw [Report.totals_concat, ← (h.after hoptions n).iterations]
      rfl

end History

open Extended

/-- **Histories.** For every inner solver, after every number of calls whose results are any: the
continuation holds what its record says, its level is that of the last solve, decayed, the results
so far are the inner reports with the iterations summed up, and a call that fails changes the
iterate and the state of the solver only. Over exact arithmetic, the radius is never below the
initial one. -/
theorem history_determines_controls :
    (∀ {α σ ε : Type} [Scalar α] (setup : ContinuationSetup α) (solver : InnerSolver α σ ε)
      (state : σ) (c : Continuation α σ ε), ofSetup setup solver state = .ok c → ∀ n,
        Holds setup (c.record n) (c.after n)
        ∧ (∀ level, (c.after n).solvedLevel = some level →
          (c.after n).controls.level = level.decay decayRatio)
        ∧ c.returned n = Report.totals (c.record n)
        ∧ ∀ failure, (c.after n).step.1 = .error failure →
          ∃ z s, c.after (n + 1) = { c.after n with iterate := z, solverState := s })
    ∧ ∀ {σ ε : Type} (setup : ContinuationSetup Extended) (solver : InnerSolver Extended σ ε)
      (state : σ) (c : Continuation Extended σ ε), ofSetup setup solver state = .ok c → ∀ n,
        ¬(c.after n).controls.radius < setup.options.initialRadius := by
  constructor
  · intro α σ ε _ setup solver state c hc n
    have hstart := holds_of_ofSetup hc
    have hoptions := (built_of_ofSetup hc).options
    have hholds := hstart.after hoptions n
    exact ⟨hholds, fun _ hlevel ↦ hholds.level_eq_decay hlevel,
      returned_eq_totals hstart hoptions n, fun _ hfailure ↦ step_of_error hfailure⟩
  · intro σ ε setup solver state c hc n
    rw [((holds_of_ofSetup hc).after (built_of_ofSetup hc).options n).radius]
    cases (c.record n).getLast? with
    | none => exact not_lt_self _
    | some report => exact not_maxNum_lt _ _

/-! ## A scripted solver

The inner solver need not solve anything. One that answers from a script shows every history. -/

section Script

variable {α ε : Type}

/-- The inner solver that answers from a list and leaves the iterate where it is. -/
def scripted : InnerSolver α (List (Except (Failure ε) (Report α))) ε where
  name := "scripted"
  solve task outcomes := (⟨outcomes.headD (.error .unfinished), task.iterate⟩, outcomes.tail)

/-- Two solves of the parabola that succeed, with a failure before each of them. -/
theorem scripted_parabola_history :
    ∃ (first last : Report Extended) (c : Continuation Extended _ SolverError),
    ofSetup parabolaSetup scripted
      [.error .unfinished, .ok first, .error (.fault .slackNotPositive), .ok last] = .ok c
    ∧ (c.after 4).controls.level = ⟨real (0.1 * 0.2 * 0.2), real (0.1 * 0.2 * 0.2)⟩
    ∧ (c.after 4).solvedLevel = some ⟨real (0.1 * 0.2), real (0.1 * 0.2)⟩
    ∧ (c.after 4).controls.iterations = 7 ∧ (c.after 4).controls.multipliers = last.multipliers
    ∧ (c.after 4).controls.radius = real 10 ∧ c.returned 4 = [first, { last with iterations := 7 }]
    ∧ ¬(c.after 4).controls.radius < parabolaSetup.options.initialRadius := by
  let first : Report Extended := ⟨3, real 0, real 0, real 0.1, real 1, [real 1, real 2]⟩
  let last : Report Extended := ⟨4, real 0, real 0, real 2, real 1, [real 3, real 4]⟩
  obtain ⟨c, hc, hrecord⟩ : ∃ c : Continuation Extended _ SolverError,
      ofSetup parabolaSetup scripted
        [.error .unfinished, .ok first, .error (.fault .slackNotPositive), .ok last] = .ok c
      ∧ c.record 4 = [first, last] := ⟨_, rfl, rfl⟩
  obtain ⟨hholds, -, hreturned, -⟩ :=
    history_determines_controls.1 parabolaSetup scripted _ c hc 4
  rw [hrecord] at hholds hreturned
  refine ⟨first, last, c, hc, hholds.level, hholds.solvedLevel, hholds.iterations,
    Option.some_inj.mp hholds.multipliers, ?_, hreturned,
    history_determines_controls.2 parabolaSetup scripted _ c hc 4⟩
  rw [hholds.radius]
  change real (max 1.0 (5.0 * 2)) = real 10
  norm_num

end Script

end Continuation

end LogBarrier
