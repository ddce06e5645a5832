import LogBarrier.Proofs.TrustRegion.Endings

/-!
# The rounds of a tangential step

A conjugate gradient iteration counts its rounds, and it counts the successive rounds that ended
outside of the box. Both counts are limited by the dimension of the null space. What is shown of
them uses no law of arithmetic, so it also holds where numbers overflow or are missing.

## The limit that never acts

The rounds that ended outside of the box are among the rounds that were done. So their limit is not
exceeded before the iteration runs out of rounds, and a report that the rounds are exhausted means
that every one of them was used.

## The iterate that is kept

Every result of an iteration is tested against the box. The iterate that replaces it was inside of
the box when it was kept; before the first round it is the origin.
-/

namespace LogBarrier

open Extended Relation

namespace TangentialStep

variable {α : Type} [Scalar α] {model : Model α} {tol : α} {limit limit' left : ℕ}
  {s s' : State α} {b c x : Vec α} {report : TangentialReport}

def Model.ContainsOrigin (model : Model α) : Prop :=
  Vec.inBox (Vec.zeros model.projector.variableCount) model.lower model.upper = true

/-! ## The invariant -/

/-- What holds of the counts and of the iterate that is kept, at the start of every round. -/
structure State.Accounted (model : Model α) (s : State α) : Prop where
  outside_le : s.outside ≤ s.rounds
  inBox_inside : model.ContainsOrigin → Vec.inBox s.inside model.lower model.upper = true

theorem accounted_of_begins (h : Begins model c b s) : s.Accounted model := by
  obtain ⟨_, _, _, -, -, -, -, -, -, -, -, houtside, hinside⟩ := start_eq_ok h.start
  refine ⟨houtside ▸ Nat.zero_le _, fun horigin ↦ ?_⟩
  rw [hinside]
  exact horigin

namespace State.Accounted

variable (hs : s.Accounted model)

include hs

theorem noting (x : Vec α) : (s.counted.noting model x).Accounted model := by
  rw [State.noting]
  split
  next hinside => exact ⟨Nat.zero_le _, fun _ ↦ hinside⟩
  next => exact ⟨Nat.succ_le_succ hs.outside_le, hs.inBox_inside⟩

theorem isLost_eq_false (hrounds : s.rounds < limit) (x : Vec α) :
    isLost (s.counted.noting model x) limit = false := by
  obtain ⟨_, _, hnoting, -⟩ := State.noting_eq model s.counted x
  have hcounted : (s.counted.noting model x).rounds = s.rounds + 1 := by
    rw [hnoting]
    rfl
  have hle := (hs.noting x).outside_le
  exact decide_eq_false (by omega)

theorem fullRound (h : FullRound model tol s s') : s'.Accounted model := by
  obtain ⟨k, x, -, -, hadvance⟩ := h
  obtain ⟨_, -, -, -, -, -, -, hinside, hrounds, houtside⟩ := advance_eq_ok hadvance
  obtain ⟨hle, hbox⟩ := hs.noting x
  exact ⟨by rwa [houtside, hrounds], by rwa [hinside]⟩

end State.Accounted

theorem Visits.accounted (h : Visits model c b s) : s.Accounted model := by
  obtain ⟨s₀, hs₀, hpath⟩ := h
  induction hpath with
  | refl => exact accounted_of_begins hs₀
  | tail _ hround ih => exact ih.fullRound hround

/-! ## All rounds -/

/-- What the number of rounds has to do with the reason why they ended. -/
structure Accounts (limit rounds : ℕ) (stop : TangentialStop) : Prop where
  rounds_le : rounds ≤ limit
  rounds_eq : stop = .exhausted → rounds = limit
  rounds_lt : stop = .converged → rounds < limit

theorem Ending.accounts {r : State α × TangentialStop × Bool} (h : Ending model tol limit s r)
    (hs : s.Accounted model) (hrounds : s.rounds < limit) :
    Accounts limit r.1.rounds r.2.1 ∧ r.1.inside = s.inside := by
  cases h with
  | exhausted hused => exact absurd hused hrounds.ne
  | converged => exact ⟨⟨hrounds.le, nofun, fun _ ↦ hrounds⟩, rfl⟩
  | @lost _ x _ _ hlost =>
    rw [hs.isLost_eq_false hrounds x] at hlost
    cases hlost
  | boundary hmoves =>
    refine ⟨⟨hrounds, ?_, ?_⟩, rfl⟩
    · rintro rfl
      cases hmoves
    · rintro rfl
      cases hmoves

/-- An iteration ends with its rounds accounted for, and keeps an iterate that is inside. -/
theorem iterate_accounts {r : State α × TangentialStop × Bool} (hs : s.Accounted model)
    (hrounds : s.rounds + left = limit) (h : iterate model tol limit left s = .ok r) :
    Accounts limit r.1.rounds r.2.1
      ∧ (model.ContainsOrigin → Vec.inBox r.1.inside model.lower model.upper = true) := by
  induction left generalizing s with
  | zero =>
    cases h
    exact ⟨⟨hrounds.le, fun _ ↦ hrounds, nofun⟩, hs.inBox_inside⟩
  | succ left ih =>
    obtain hending | ⟨s', hround, h⟩ := iterate_round h
    · obtain ⟨haccounts, hinside⟩ := hending.accounts hs (by omega)
      rw [hinside]
      exact ⟨haccounts, hs.inBox_inside⟩
    · exact ih (hs.fullRound hround) (by rw [hround.rounds_eq]; omega) h

/-- The limit on the rounds outside makes no difference if it admits all rounds. -/
theorem iterate_eq_of_le (hs : s.Accounted model) (h : s.rounds + left ≤ limit)
    (h' : s.rounds + left ≤ limit') :
    iterate model tol limit left s = iterate model tol limit' left s := by
  induction left generalizing s with
  | zero => rfl
  | succ left ih =>
    rw [iterate, iterate]
    split
    · rfl
    next hlarge =>
      refine bind_congr_of_ok fun k hk ↦ ?_
      split
      · rfl
      next hpositive =>
        refine bind_congr_of_ok fun x hx ↦ ?_
        split
        · rfl
        next hball =>
          rw [hs.isLost_eq_false (by omega), hs.isLost_eq_false (by omega)]
          refine bind_congr_of_ok fun s' hs' ↦ ?_
          have hround : FullRound model tol s s' := ⟨k, x, ⟨hlarge, hk, hpositive, hx⟩, hball, hs'⟩
          have hcounted := hround.rounds_eq
          exact ih (hs.fullRound hround) (by omega) (by omega)

theorem conclude_accounts {r : State α × TangentialStop × Bool}
    (h : conclude model r.1 r.2.1 r.2.2 = (x, report)) :
    report.rounds = r.1.rounds ∧ report.stop = r.2.1
      ∧ (Vec.inBox r.1.inside model.lower model.upper = true →
        Vec.inBox x model.lower model.upper = true) := by
  rw [conclude] at h
  split at h
  next hbox =>
    cases h
    exact ⟨rfl, rfl, fun _ ↦ hbox⟩
  next =>
    cases h
    exact ⟨rfl, rfl, id⟩

/-- How the rounds of a tangential step are accounted for. -/
structure Model.AccountsFor (model : Model α) (c b : Vec α) : Prop where
  /-- The limit on the rounds outside is not exceeded in any round that is permitted. -/
  limited : ∀ s x, Visits model c b s → s.rounds < model.roundLimit →
    isLost (s.counted.noting model x) model.roundLimit = false
  /-- With any larger limit, the iteration is the same. -/
  unlimited : ∀ s limit, Begins model c b s → model.roundLimit ≤ limit →
    iterate model (tolerance s.gradientSq) limit model.roundLimit s =
      iterate model (tolerance s.gradientSq) model.roundLimit model.roundLimit s
  /-- The report counts the rounds. -/
  accounts : ∀ x report, compute model c b = .ok (x, report) →
    Accounts model.roundLimit report.rounds report.stop
  /-- The result is in the box, unless it is the starting point. -/
  inBox : model.ContainsOrigin → ∀ x report, compute model c b = .ok (x, report) →
    Vec.inBox x model.lower model.upper = true ∨ IsStart model c b x report
  /-- There is a result if the lengths agree. -/
  answers : ∀ m n, model.Shaped (fun _ ↦ False) m n → c.length = n → b.length = m →
    ∃ x report, compute model c b = .ok (x, report) ∧ x.length = n

/-- A tangential step is the starting point, or its report accounts for the rounds and its result is
in the box. -/
theorem compute_accounts (h : compute model c b = .ok (x, report)) :
    IsStart model c b x report ∨ Accounts model.roundLimit report.rounds report.stop
      ∧ (model.ContainsOrigin → Vec.inBox x model.lower model.upper = true) := by
  obtain hstart | ⟨s, r, hs, hr, hconclude⟩ := compute_eq_ok h
  · exact .inl hstart
  · obtain ⟨haccounts, hinside⟩ := iterate_accounts (accounted_of_begins hs)
      (by rw [hs.rounds_eq, Nat.zero_add]) hr
    obtain ⟨hrounds, hstop, hinBox⟩ := conclude_accounts hconclude
    rw [hrounds, hstop]
    exact .inr ⟨haccounts, fun horigin ↦ hinBox (hinside horigin)⟩

/-- **Accounting for the rounds.** Over any arithmetic, a tangential step makes at most as many
rounds as the null space has dimensions, all of them if it reports them exhausted and fewer if it
reports convergence. The limit on successive rounds outside of the box never ends it, and its result
is in the box if the origin is. -/
theorem compute_accounted (model : Model α) (c b : Vec α) : model.AccountsFor c b := by
  constructor
  case limited => exact fun s x hs hrounds ↦ hs.accounted.isLost_eq_false hrounds x
  case unlimited =>
    intro s limit hs hlimit
    have hrounds : s.rounds + model.roundLimit = model.roundLimit := by
      rw [hs.rounds_eq, Nat.zero_add]
    exact iterate_eq_of_le (accounted_of_begins hs) (hrounds.trans_le hlimit) hrounds.le
  case accounts =>
    intro x report h
    obtain ⟨_, -, -, -, rfl⟩ | ⟨haccounts, -⟩ := compute_accounts h
    · exact ⟨Nat.zero_le _, nofun, nofun⟩
    · exact haccounts
  case inBox =>
    intro horigin x report h
    obtain hstart | ⟨-, hinBox⟩ := compute_accounts h
    · exact .inr hstart
    · exact .inl (hinBox horigin)
  case answers =>
    intro m n hshaped hc hb
    obtain ⟨⟨x, report⟩, h, hx⟩ := (ensures_compute hshaped hc hb).exists_ok
    exact ⟨x, report, h, hx⟩

/-! ## In the mist -/

section Mist

noncomputable def mist : Model Extended where
  hessian := .diagonal [nan]
  projector := ⟨DenseMatrix.zeros 1 0, DenseMatrix.zeros 0 0⟩
  radius := real 1
  lower := [real (-1)]
  upper := [real 1]

/-- The state after some rounds in the mist, all of which ended outside of the box. -/
noncomputable def misty (a : Extended) (rounds : ℕ) : State Extended :=
  ⟨[a], [0], [nan], [nan], [nan], nan, rounds, rounds⟩

theorem not_inBox_nan : ¬Vec.inBox [nan] mist.lower mist.upper = true := by
  intro h
  exact (Vec.inBox_iff.mp h 0 nan _ _ rfl rfl rfl).2

theorem iterate_misty (a : Extended) : iterate mist (tolerance nan) 1 1 (misty a 0) =
    .ok (misty nan 1, .exhausted, false) := by
  -- Comparisons with a missing number are false, so the round makes a full step.
  have hstep : FullStep (tolerance nan) (misty a 0) nan [nan] := by
    refine ⟨id, rfl, id, ?_⟩
    cases a <;> rfl
  have hnoting : (misty a 0).counted.noting mist [nan] = misty a 1 := if_neg not_inBox_nan
  have hadvance : advance mist ((misty a 0).counted.noting mist [nan]) (nan / nan) [nan] =
      .ok (misty nan 1) := by
    rw [hnoting]
    rfl
  rw [iterate_of_fullStep hstep id (by rw [hnoting]; rfl) hadvance]
  rfl

theorem compute_mist : compute mist [real 1] [] = .ok ([0], ⟨1, .exhausted, true⟩) := by
  have hstart : start mist [real 1] [] = .ok (misty (real (-0)) 0) := rfl
  have hroom : ¬mist.radius - Vec.norm (misty (real (-0)) 0).x < negligible := by
    rw [misty, neg_zero, ← zero_eq]
    change ¬real 1 - Vec.norm (Vec.zeros 1) < negligible
    rw [Vec.norm_zeros, zero_eq, real_sub, negligible, ofScientific_eq, real_lt]
    norm_num
  rw [compute, hstart, ok_bind, if_neg hroom]
  change (iterate mist (tolerance nan) 1 1 (misty (real (-0)) 0) >>= _) = _
  rw [iterate_misty, ok_bind]
  exact congrArg Except.ok (if_neg not_inBox_nan)

/-- In the mist all rounds are used, and the step returns to the origin. -/
theorem mist_accounted : compute mist [real 1] [] = .ok ([0], ⟨1, .exhausted, true⟩)
    ∧ Accounts mist.roundLimit 1 .exhausted ∧ Vec.inBox [0] mist.lower mist.upper = true := by
  have haccounted := compute_accounted mist [real 1] []
  have horigin : mist.ContainsOrigin := Vec.inBox_iff.mpr (Vec.fits_zeros ⟨by
    simp [mist, zero_eq], by simp [mist, zero_eq]⟩ 1)
  refine ⟨compute_mist, haccounted.accounts _ _ compute_mist,
    (haccounted.inBox horigin _ _ compute_mist).resolve_right ?_⟩
  rintro ⟨_, -, -, -, hreport⟩
  cases hreport

end Mist

end TangentialStep

end LogBarrier
