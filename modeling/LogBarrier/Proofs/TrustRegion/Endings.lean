import LogBarrier.Proofs.Shape.Steps
import LogBarrier.Proofs.TrustRegion.Parts
import Mathlib.Logic.Relation

/-!
# Endings of a conjugate gradient iteration

An iteration makes full steps, each of which leads from one state to the next, until it ends in one
of five ways. So a property of its result follows from what a full step preserves, and from the
ending.

## Leaving the line

Two of the endings move the iterate along its direction as far as the box and the ball allow, and
then into the box, entry by entry. The second movement is meant for rounding errors: a point of the
segment that was found is in the box, and so is every iterate inside, and neither of them moves. But
an iterate outside of the box, from which no segment is found, moves off its line.
-/

namespace LogBarrier

open Extended Relation

namespace Vec

variable {x y z d lower upper : Vec Extended}

theorem eq_of_clamp (hfits : Fits x lower upper) (h : clamp x lower upper = .ok y) : y = x := by
  obtain ⟨hlength, hentries⟩ := clamp_eq_ok h
  refine List.ext_getElem? fun i ↦ ?_
  cases hi : y[i]? with
  | none =>
    rw [List.getElem?_eq_none_iff] at hi
    exact (List.getElem?_eq_none (hlength ▸ hi)).symm
  | some a =>
    obtain ⟨b, l, u, hb, hl, hu, rfl⟩ := hentries i a hi
    obtain ⟨hlb, hbu⟩ := hfits i b l u hb hl hu
    rw [hb, maxNum_comm, maxNum_eq_right hlb, minNum_eq_left hbu]

theorem onLine_scale (hd : IsReal d) (t θ : ℝ) :
    onLine z (scale d (real t)) (real θ) = onLine z d (real (t * θ)) := by
  rw [onLine, onLine, scale, scale, scale, List.map_map]
  refine congrArg _ (List.map_congr_left fun b hb ↦ ?_)
  obtain ⟨r, rfl⟩ := hd b hb
  rw [Function.comp_apply, real_mul, real_mul, real_mul, mul_assoc]

end Vec

namespace TangentialStep

section Rounds

variable {α : Type} [Scalar α]

/-- The state goes on with a full step to `x`, along a direction of curvature `k`. -/
structure FullStep (tol : α) (s : State α) (k : α) (x : Vec α) : Prop where
  large : ¬s.gradientSq < tol
  curvature : Vec.dot s.image s.direction = .ok k
  positive : ¬k ≤ 0
  reaches : Vec.add s.x (Vec.scale s.direction (s.gradientSq / k)) = .ok x

/-- A round that leads to the next state by a full step within the ball. -/
def FullRound (model : Model α) (tol : α) (s s' : State α) : Prop :=
  ∃ k x, FullStep tol s k x ∧ ¬model.radius ≤ Vec.norm x
    ∧ advance model (s.counted.noting model x) (s.gradientSq / k) x = .ok s'

/-- The iterate is moved for the last time, to `x`: along a direction without positive curvature, or
because a full step leaves the ball. -/
inductive Moves (model : Model α) (tol : α) (s : State α) : Vec α → TangentialStop → Prop where
  | negativeCurvature {k : α} {x : Vec α} (large : ¬s.gradientSq < tol)
    (curvature : Vec.dot s.image s.direction = .ok k) (negative : k ≤ 0)
    (moved : alongNegativeCurvature model s.counted = .ok x) :
    Moves model tol s x .negativeCurvature
  | ballBoundary {k : α} {x y : Vec α} (step : FullStep tol s k y)
    (leaves : model.radius ≤ Vec.norm y)
    (moved : towardsBoundary model s.counted (Vec.scale s.direction (s.gradientSq / k)) = .ok x) :
    Moves model tol s x .ballBoundary

/-- How the iteration with the given number of rounds may end at a state: with which state, for
which reason, and whether this counts as reaching the boundary. -/
inductive Ending (model : Model α) (tol : α) (limit : ℕ) (s : State α) :
    State α × TangentialStop × Bool → Prop where
  | exhausted (used : s.rounds = limit) : Ending model tol limit s (s, .exhausted, false)
  | converged (small : s.gradientSq < tol) : Ending model tol limit s (s, .converged, false)
  | lost {k : α} {x : Vec α} (step : FullStep tol s k x) (ball : ¬model.radius ≤ Vec.norm x)
    (lost : isLost (s.counted.noting model x) limit = true) :
    Ending model tol limit s (s.counted.noting model x, .exhausted, false)
  | boundary {x : Vec α} {stop : TangentialStop} (moves : Moves model tol s x stop) :
    Ending model tol limit s ({ s.counted with x }, stop, true)

theorem State.noting_eq (model : Model α) (s : State α) (x : Vec α) : ∃ inside outside,
    s.noting model x = { s with inside, outside } ∧ (inside = x ∨ inside = s.inside) := by
  rw [State.noting]
  split
  · exact ⟨x, 0, rfl, .inl rfl⟩
  · exact ⟨s.inside, s.outside + 1, rfl, .inr rfl⟩

theorem advance_eq_ok {model : Model α} {s s' : State α} {t : α} {x : Vec α}
    (h : advance model s t x = .ok s') : ∃ residual,
      Vec.add s.gradient (Vec.scale s.image t) = .ok residual
      ∧ model.projector.toNullSpace residual = .ok s'.gradient
      ∧ s'.gradientSq = Vec.normSq s'.gradient
      ∧ Vec.sub (Vec.scale s.direction (s'.gradientSq / s.gradientSq)) s'.gradient
        = .ok s'.direction
      ∧ model.hessian.apply s'.direction = .ok s'.image
      ∧ s'.x = x ∧ s'.inside = s.inside ∧ s'.rounds = s.rounds ∧ s'.outside = s.outside := by
  obtain ⟨residual, hresidual, h⟩ := bind_eq_ok_iff.mp h
  obtain ⟨gradient, hgradient, h⟩ := bind_eq_ok_iff.mp h
  obtain ⟨direction, hdirection, h⟩ := bind_eq_ok_iff.mp h
  obtain ⟨image, himage, h⟩ := bind_eq_ok_iff.mp h
  cases h
  exact ⟨residual, hresidual, hgradient, rfl, hdirection, himage, rfl, rfl, rfl, rfl⟩

theorem FullRound.rounds_eq {model : Model α} {tol : α} {s s' : State α}
    (h : FullRound model tol s s') : s'.rounds = s.rounds + 1 := by
  obtain ⟨k, x, -, -, h⟩ := h
  obtain ⟨inside, outside, hnoting, -⟩ := State.noting_eq model s.counted x
  rw [hnoting] at h
  obtain ⟨_, -, -, -, -, -, -, -, hrounds, -⟩ := advance_eq_ok h
  exact hrounds

/-- An iteration with rounds left ends at the state, or it goes on after a full round. -/
theorem iterate_round {model : Model α} {tol : α} {limit left : ℕ} {s : State α}
    {r : State α × TangentialStop × Bool} (h : iterate model tol limit (left + 1) s = .ok r) :
    Ending model tol limit s r
      ∨ ∃ s', FullRound model tol s s' ∧ iterate model tol limit left s' = .ok r := by
  rw [iterate] at h
  split at h
  next hsmall =>
    cases h
    exact .inl (.converged hsmall)
  next hlarge =>
    obtain ⟨k, hk, h⟩ := bind_eq_ok_iff.mp h
    split at h
    next hnegative =>
      obtain ⟨x, hx, h⟩ := bind_eq_ok_iff.mp h
      cases h
      exact .inl (.boundary (.negativeCurvature hlarge hk hnegative hx))
    next hpositive =>
      obtain ⟨x, hx, h⟩ := bind_eq_ok_iff.mp h
      have hstep : FullStep tol s k x := ⟨hlarge, hk, hpositive, hx⟩
      split at h
      next hleaves =>
        obtain ⟨y, hy, h⟩ := bind_eq_ok_iff.mp h
        cases h
        exact .inl (.boundary (.ballBoundary hstep hleaves hy))
      next hball =>
        split at h
        next hlost =>
          cases h
          exact .inl (.lost hstep hball hlost)
        next =>
          obtain ⟨s', hs', h⟩ := bind_eq_ok_iff.mp h
          exact .inr ⟨s', ⟨k, x, hstep, hball, hs'⟩, h⟩

/-- An iteration makes full steps until it ends. -/
theorem iterate_ends {model : Model α} {tol : α} {limit left : ℕ} {s : State α}
    {r : State α × TangentialStop × Bool} (hrounds : s.rounds + left = limit)
    (h : iterate model tol limit left s = .ok r) :
    ∃ s', ReflTransGen (FullRound model tol) s s' ∧ Ending model tol limit s' r := by
  induction left generalizing s with
  | zero =>
    cases h
    exact ⟨s, .refl, .exhausted hrounds⟩
  | succ left ih =>
    obtain hending | ⟨s', hround, h⟩ := iterate_round h
    · exact ⟨s, .refl, hending⟩
    · obtain ⟨r', hpath, hending⟩ := ih (by rw [hround.rounds_eq]; omega) h
      exact ⟨r', .head hround hpath, hending⟩

theorem iterate_of_fullStep {model : Model α} {tol k : α} {limit left : ℕ} {s s' : State α}
    {x : Vec α} (h : FullStep tol s k x) (hball : ¬model.radius ≤ Vec.norm x)
    (hlost : isLost (s.counted.noting model x) limit = false)
    (hadvance : advance model (s.counted.noting model x) (s.gradientSq / k) x = .ok s') :
    iterate model tol limit (left + 1) s = iterate model tol limit left s' := by
  rw [iterate, if_neg h.large, h.curvature, ok_bind, if_neg h.positive]
  dsimp only
  rw [h.reaches, ok_bind, if_neg hball, hlost, if_neg Bool.false_ne_true, hadvance, ok_bind]

theorem iterate_of_ballBoundary {model : Model α} {tol k : α} {limit left : ℕ} {s : State α}
    {x y : Vec α} (h : FullStep tol s k x) (hball : model.radius ≤ Vec.norm x)
    (hy : towardsBoundary model s.counted (Vec.scale s.direction (s.gradientSq / k)) = .ok y) :
    iterate model tol limit (left + 1) s =
      .ok ({ s.counted with x := y }, .ballBoundary, true) := by
  rw [iterate, if_neg h.large, h.curvature, ok_bind, if_neg h.positive]
  dsimp only
  rw [h.reaches, ok_bind, if_pos hball, hy, ok_bind]
  rfl

/-- The computation of a tangential step starts an iteration at this state, since there is room in
the ball. -/
structure Begins (model : Model α) (c b : Vec α) (s : State α) : Prop where
  start : start model c b = .ok s
  room : ¬model.radius - Vec.norm s.x < negligible

/-- The computation of a tangential step may come to this state. -/
def Visits (model : Model α) (c b : Vec α) (s : State α) : Prop :=
  ∃ s₀, Begins model c b s₀ ∧ ReflTransGen (FullRound model (tolerance s₀.gradientSq)) s₀ s

theorem start_eq_ok {model : Model α} {c b : Vec α} {s : State α}
    (h : start model c b = .ok s) : ∃ w v gradient,
      model.hessian.apply s.x = .ok w ∧ Vec.add w c = .ok v
      ∧ model.projector.toNullSpace v = .ok s.gradient
      ∧ model.projector.toNullSpace s.gradient = .ok gradient
      ∧ s.gradientSq = Vec.normSq gradient ∧ s.direction = Vec.neg gradient
      ∧ model.hessian.apply s.direction = .ok s.image ∧ s.rounds = 0 ∧ s.outside = 0
      ∧ s.inside = Vec.zeros model.projector.variableCount := by
  obtain ⟨u, -, h⟩ := bind_eq_ok_iff.mp h
  obtain ⟨w, hw, h⟩ := bind_eq_ok_iff.mp h
  obtain ⟨v, hv, h⟩ := bind_eq_ok_iff.mp h
  obtain ⟨residual, hresidual, h⟩ := bind_eq_ok_iff.mp h
  obtain ⟨gradient, hgradient, h⟩ := bind_eq_ok_iff.mp h
  obtain ⟨image, himage, h⟩ := bind_eq_ok_iff.mp h
  cases h
  exact ⟨w, v, gradient, hw, hv, hresidual, hgradient, rfl, rfl, himage, rfl, rfl, rfl⟩

/-- The tangential step is the starting point, in the absence of room in the ball. -/
def IsStart (model : Model α) (c b x : Vec α) (report : TangentialReport) : Prop :=
  ∃ s, start model c b = .ok s ∧ model.radius - Vec.norm s.x < negligible ∧ x = s.x
    ∧ report = ⟨0, .ballBoundary, true⟩

/-- A tangential step is the starting point, or it is concluded from an iteration. -/
theorem compute_eq_ok {model : Model α} {c b x : Vec α} {report : TangentialReport}
    (h : compute model c b = .ok (x, report)) :
    IsStart model c b x report
    ∨ ∃ s r, Begins model c b s
      ∧ iterate model (tolerance s.gradientSq) model.roundLimit model.roundLimit s = .ok r
      ∧ conclude model r.1 r.2.1 r.2.2 = (x, report) := by
  obtain ⟨s, hs, h⟩ := bind_eq_ok_iff.mp h
  split at h
  next hroom =>
    cases h
    exact .inl ⟨s, hs, hroom, rfl, rfl⟩
  next hroom =>
    obtain ⟨r, hr, h⟩ := bind_eq_ok_iff.mp h
    exact .inr ⟨s, r, ⟨hs, hroom⟩, hr, Except.ok.inj h⟩

theorem Begins.rounds_eq {model : Model α} {c b : Vec α} {s : State α} (h : Begins model c b s) :
    s.rounds = 0 := by
  obtain ⟨_, _, _, -, -, -, -, -, -, -, hrounds, -⟩ := start_eq_ok h.start
  exact hrounds

/-- An iteration whose only round stays inside of the ball and of the box ends with that round. -/
theorem compute_of_fullStep {model : Model α} {c b x : Vec α} {s₀ : State α} {k : α} {m n : ℕ}
    (hm : model.Shaped (fun _ ↦ False) m n) (hc : c.length = n) (hb : b.length = m)
    (hs₀ : Begins model c b s₀) (hlimit : model.roundLimit = 1)
    (hstep : FullStep (tolerance s₀.gradientSq) s₀ k x) (hball : ¬model.radius ≤ Vec.norm x)
    (hbox : Vec.inBox x model.lower model.upper = true) :
    compute model c b = .ok (x, ⟨1, .exhausted, false⟩) := by
  have hshape : s₀.Shaped n := (ensures_start hm hc hb).of_eq_ok hs₀.start
  have hadd : Ensures (fun _ ↦ False) (fun y ↦ y.length = n)
      (Vec.add s₀.x (Vec.scale s₀.direction (s₀.gradientSq / k))) :=
    Vec.ensures_add hshape.x ((Vec.length_scale _ _).trans hshape.direction)
  have hx : x.length = n := hadd.of_eq_ok hstep.reaches
  have hnoting : s₀.counted.noting model x = { s₀.counted with inside := x, outside := 0 } :=
    if_pos hbox
  have hnoted : (s₀.counted.noting model x).Shaped n := by
    rw [hnoting]
    exact ⟨hshape.x, hx, hshape.gradient, hshape.direction, hshape.image⟩
  obtain ⟨s, hs, -⟩ := (ensures_advance hm hnoted (s₀.gradientSq / k) hx).exists_ok
  have hlost : isLost (s₀.counted.noting model x) 1 = false := by
    rw [hnoting]
    rfl
  have hrounds : s.rounds = 1 := by
    obtain ⟨_, -, -, -, -, -, -, -, hrounds, -⟩ := advance_eq_ok hs
    rw [hrounds, hnoting, State.counted, hs₀.rounds_eq]
  obtain ⟨_, -, -, -, -, -, rfl, -, -⟩ := advance_eq_ok hs
  rw [compute, hs₀.start, ok_bind, if_neg hs₀.room, hlimit,
    iterate_of_fullStep hstep hball hlost hs]
  change Except.ok (conclude model s .exhausted false) = _
  rw [conclude, if_pos hbox, hrounds]

/-- A tangential step is the starting point, or it is concluded from an ending. -/
theorem compute_ends {model : Model α} {c b x : Vec α} {report : TangentialReport}
    (h : compute model c b = .ok (x, report)) :
    IsStart model c b x report
    ∨ ∃ s₀ s r, Begins model c b s₀ ∧ ReflTransGen (FullRound model (tolerance s₀.gradientSq)) s₀ s
      ∧ Ending model (tolerance s₀.gradientSq) model.roundLimit s r
      ∧ conclude model r.1 r.2.1 r.2.2 = (x, report) := by
  obtain hstart | ⟨s₀, r, hs₀, hr, hconclude⟩ := compute_eq_ok h
  · exact .inl hstart
  · obtain ⟨s, hpath, hending⟩ := iterate_ends (by rw [hs₀.rounds_eq, Nat.zero_add]) hr
    exact .inr ⟨s₀, s, r, hs₀, hpath, hending, hconclude⟩

/-- The result is the last iterate, or the last one inside of the box. -/
theorem conclude_eq {model : Model α} {s : State α} {stop : TangentialStop} {hits : Bool}
    {x : Vec α} {report : TangentialReport} (h : conclude model s stop hits = (x, report)) :
    (x = s.x ∨ x = s.inside) ∧ report.stop = stop := by
  rw [conclude] at h
  split at h
  · cases h
    exact ⟨.inl rfl, rfl⟩
  · cases h
    exact ⟨.inr rfl, rfl⟩

end Rounds

/-! ## Visited states -/

variable {model : Model Extended} {a : DenseMatrix Extended} {ρ τ : ℝ} {s s' : State Extended}
  {c x : Vec Extended} {m : ℕ}

/-- The model belongs to the constraint matrix, its data consist of real numbers, and its box
contains the origin. Nothing is said of the radius. -/
structure Model.Over (model : Model Extended) (a : DenseMatrix Extended) : Prop where
  hessian : model.hessian.HasShape a.cols a.cols
  isReal_hessian : model.hessian.IsReal
  isReal_matrix : a.IsReal
  projector : model.projector.BelongsTo a
  length_lower : model.lower.length = a.cols
  length_upper : model.upper.length = a.cols
  admitZero : Vec.AdmitZero model.lower model.upper

namespace Model.Over

theorem isReal (hm : model.Over a) : model.IsReal :=
  ⟨hm.isReal_hessian, hm.projector.isReal hm.isReal_matrix, hm.admitZero⟩

theorem isFactored (hm : model.Over a) :
    a.transpose.IsFactored model.projector.orthogonal model.projector.triangular :=
  hm.projector.isFactored hm.isReal_matrix

theorem shaped (hm : model.Over a) (allowed : Fault → Prop) :
    model.Shaped allowed a.rows a.cols where
  hessian := hm.hessian
  projector := hm.projector.regular hm.isReal_matrix allowed
  lower := hm.length_lower
  upper := hm.length_upper

theorem exists_compute (hm : model.Over a) (hc : c.length = a.cols) :
    ∃ x report, compute model c (Vec.zeros a.rows) = .ok (x, report) := by
  obtain ⟨⟨x, report⟩, h, -⟩ :=
    (ensures_compute (hm.shaped fun _ ↦ False) hc (Vec.length_zeros _)).exists_ok
  exact ⟨x, report, h⟩

end Model.Over

/-- The model belongs to the constraint matrix and to a ball of positive radius, its data consist of
real numbers, and its box contains the origin. -/
structure Model.PosedOver (model : Model Extended) (a : DenseMatrix Extended) (ρ : ℝ) : Prop
    extends model.Over a where
  radius : model.radius = real ρ
  radius_pos : 0 < ρ

namespace Model.PosedOver

theorem isReal (hm : model.PosedOver a ρ) : model.IsReal := hm.toOver.isReal

theorem isFactored (hm : model.PosedOver a ρ) :
    a.transpose.IsFactored model.projector.orthogonal model.projector.triangular :=
  hm.toOver.isFactored

theorem variableCount (hm : model.PosedOver a ρ) : model.projector.variableCount = a.cols :=
  (hm.toOver.shaped fun _ ↦ False).projector.variableCount

end Model.PosedOver

theorem FullStep.exists_real {k : Extended} (h : FullStep (real τ) s k x) (hτ : 0 < τ)
    (hs : s.IsReal) : ∃ g κ : ℝ, s.gradientSq = real g ∧ k = real κ ∧ 0 < g ∧ 0 < κ
      ∧ s.gradientSq / k = real (g / κ) := by
  obtain ⟨g, hg⟩ := hs.gradientSq
  obtain ⟨κ, rfl⟩ := (Vec.yields_dot hs.image hs.direction).of_eq_ok h.curvature
  have hlarge := h.large
  have hpositive := h.positive
  rw [hg, real_lt, not_lt] at hlarge
  rw [zero_eq, real_le, not_le] at hpositive
  exact ⟨g, κ, hg, rfl, hτ.trans_le hlarge, hpositive, by rw [hg, real_div hpositive.ne']⟩

theorem RoundRule.of_fullRound {I Q : State Extended → Prop} (rule : RoundRule model I Q)
    (hτ : 0 < τ) (hs : I s) (h : FullRound model (real τ) s s') : I s' := by
  obtain ⟨k, x, hstep, hball, hadvance⟩ := h
  obtain ⟨g, κ, hg, rfl, hpos, -, ht⟩ := hstep.exists_real hτ (rule.isReal s hs)
  have hreaches := hstep.reaches
  rw [ht] at hreaches hadvance
  refine (rule.advance s _ x hs ?_ hreaches hball).of_eq_ok hadvance
  rw [hg]
  exact hpos.ne'

/-- What holds of every state that a computation visits. -/
structure State.Feasible (model : Model Extended) (ρ : ℝ) (s : State Extended) : Prop where
  invariant : s.Invariant model
  confined : s.Confined model ρ

theorem feasible_of_begins (hm : model.PosedOver a ρ) (hc : Vec.IsReal c)
    (h : Begins model c (Vec.zeros m) s) : s.Feasible model ρ := by
  obtain ⟨hinv, hzero, -⟩ := (yields_start hm.isReal hc m).of_eq_ok h.start
  exact ⟨hinv, confined_of_room hm.isReal hm.isFactored hm.radius h.start hinv hzero h.room⟩

theorem Begins.exists_tolerance (hm : model.PosedOver a ρ) (hc : Vec.IsReal c)
    (h : Begins model c (Vec.zeros m) s) : ∃ τ : ℝ, tolerance s.gradientSq = real τ ∧ 0 < τ := by
  obtain ⟨hinv, -, hgradient⟩ := (yields_start hm.isReal hc m).of_eq_ok h.start
  exact tolerance_pos hinv.gradientSq hgradient

/-- **Induction on the rounds.** What holds of a state where an iteration begins, and is preserved
by the rounds, holds of all the states that are visited. -/
theorem Visits.induction (hm : model.PosedOver a ρ) (hc : Vec.IsReal c)
    {P : State Extended → Prop} (begins : ∀ s, Begins model c (Vec.zeros m) s → P s)
    (round : ∀ (τ : ℝ) (s s' : State Extended), 0 < τ → P s → FullRound model (real τ) s s' → P s')
    (h : Visits model c (Vec.zeros m) s) : P s := by
  obtain ⟨s₀, hs₀, hpath⟩ := h
  obtain ⟨τ, hτ, hpos⟩ := hs₀.exists_tolerance hm hc
  rw [hτ] at hpath
  induction hpath with
  | refl => exact begins s₀ hs₀
  | tail _ hround ih => exact round τ _ _ hpos ih hround

theorem feasible_of_fullRound (hm : model.PosedOver a ρ) (hτ : 0 < τ) (hs : s.Feasible model ρ)
    (h : FullRound model (real τ) s s') : s'.Feasible model ρ := by
  obtain ⟨hinv, hconfined⟩ := (roundRule_null hm.isReal hm.isFactored hm.radius).of_fullRound hτ
    ⟨hs.invariant, hs.confined⟩ h
  exact ⟨hinv, hconfined⟩

theorem Visits.feasible (hm : model.PosedOver a ρ) (hc : Vec.IsReal c)
    (h : Visits model c (Vec.zeros m) s) : s.Feasible model ρ :=
  h.induction hm hc (fun _ ↦ feasible_of_begins hm hc) fun _ _ _ ↦ feasible_of_fullRound hm

/-- Induction on the rounds, for what is preserved by the rounds from feasible states. -/
theorem Visits.induction_feasible (hm : model.PosedOver a ρ) (hc : Vec.IsReal c)
    {P : State Extended → Prop} (begins : ∀ s, Begins model c (Vec.zeros m) s → P s)
    (round : ∀ (τ : ℝ) (s s' : State Extended), 0 < τ → s.Feasible model ρ → P s →
      FullRound model (real τ) s s' → P s')
    (h : Visits model c (Vec.zeros m) s) : P s := by
  refine (h.induction hm hc (P := fun s ↦ s.Feasible model ρ ∧ P s)
    (fun s hs ↦ ⟨feasible_of_begins hm hc hs, begins s hs⟩) ?_).2
  rintro τ s s' hτ ⟨hfeasible, hs⟩ hround
  exact ⟨feasible_of_fullRound hm hτ hfeasible hround, round τ s s' hτ hfeasible hs hround⟩

/-- What holds of all iterates is true of a tangential step, unless its iterate was moved for the
last time. -/
theorem holds_or_moves (hm : model.PosedOver a ρ) (hc : Vec.IsReal c) {report : TangentialReport}
    (h : compute model c (Vec.zeros m) = .ok (x, report)) {P : Vec Extended → Prop}
    (start : P (Vec.zeros model.projector.variableCount))
    (visited : ∀ s, Visits model c (Vec.zeros m) s → P s.x ∧ P s.inside)
    (step : ∀ s τ k y, Visits model c (Vec.zeros m) s → 0 < τ → FullStep (real τ) s k y →
      ¬model.radius ≤ Vec.norm y → P y) :
    P x ∨ ∃ s τ, Visits model c (Vec.zeros m) s ∧ 0 < τ ∧ Moves model (real τ) s x report.stop := by
  obtain ⟨s, hs, -, rfl, -⟩ | ⟨s₀, s, r, hs₀, hpath, hending, hconclude⟩ := compute_ends h
  · obtain ⟨hinv, hzero, -⟩ := (yields_start hm.isReal hc m).of_eq_ok hs
    exact .inl ((confined_of_start hm.isReal hm.isFactored hs hinv hzero).1 ▸ start)
  have hs : Visits model c (Vec.zeros m) s := ⟨s₀, hs₀, hpath⟩
  obtain ⟨τ, hτ, hpos⟩ := hs₀.exists_tolerance hm hc
  rw [hτ] at hending
  obtain ⟨hx, hstop⟩ := conclude_eq hconclude
  obtain ⟨hPx, hPinside⟩ := visited s hs
  cases hending with
  | exhausted | converged =>
    refine .inl ?_
    rcases hx with rfl | rfl
    · exact hPx
    · exact hPinside
  | @lost k y hstep hball _ =>
    obtain ⟨inside, outside, hnoting, hinside⟩ := State.noting_eq model s.counted y
    dsimp only at hx
    rw [hnoting] at hx
    refine .inl ?_
    rcases hx with rfl | rfl
    · exact hPx
    · rcases hinside with rfl | rfl
      · exact step s τ k _ hs hpos hstep hball
      · exact hPinside
  | boundary hmoves =>
    rcases hx with rfl | rfl
    · exact .inr ⟨s, τ, hs, hpos, hstop ▸ hmoves⟩
    · exact .inl hPinside

/-! ## Leaving the line -/

/-- An iterate outside of the box was moved into it, entry by entry. -/
def Model.Clips (model : Model Extended) (s : State Extended) (x : Vec Extended) : Prop :=
  ¬Vec.Fits s.x model.lower model.upper ∧ Vec.clamp s.x model.lower model.upper = .ok x

theorem eq_or_clips (h : Vec.clamp s.x model.lower model.upper = .ok x) :
    x = s.x ∨ model.Clips s x := by
  by_cases hfits : Vec.Fits s.x model.lower model.upper
  · exact .inl (Vec.eq_of_clamp hfits h)
  · exact .inr ⟨hfits, h⟩

theorem State.Confined.onLine_zero (hs : s.Confined model ρ) :
    Vec.onLine s.x s.direction (real 0) = s.x := by
  rw [← zero_eq, Vec.onLine_zero hs.x.isReal hs.direction.isReal,
    List.take_of_length_le (hs.x.length_eq.trans hs.direction.length_eq.symm).le]

/-- Along a direction without positive curvature, the iterate stays on its line, and goes forwards
if it is inside of the box, or it is clipped. -/
theorem onLine_or_clips_of_negativeCurvature (hm : model.PosedOver a ρ) (hs : s.Confined model ρ)
    (h : alongNegativeCurvature model s.counted = .ok x) :
    (∃ t : ℝ, x = Vec.onLine s.x s.direction (real t)
      ∧ (Vec.Fits s.x model.lower model.upper → 0 ≤ t)) ∨ model.Clips s x := by
  have hstay : Vec.clamp s.x model.lower model.upper = .ok x →
      (∃ t : ℝ, x = Vec.onLine s.x s.direction (real t)
        ∧ (Vec.Fits s.x model.lower model.upper → 0 ≤ t)) ∨ model.Clips s x := fun hclamp ↦
    (eq_or_clips hclamp).imp_left fun hx ↦ ⟨0, hx.trans hs.onLine_zero.symm, fun _ ↦ le_rfl⟩
  obtain ⟨segment, hsegment, h⟩ := bind_eq_ok_iff.mp h
  obtain _ | ⟨first, last⟩ := segment
  · exact hstay h
  dsimp only at h
  split at h
  next hfinite =>
    obtain ⟨t, rfl⟩ := isFinite_iff.mp hfinite
    obtain ⟨y, hy, hclamp⟩ := bind_eq_ok_iff.mp h
    rw [hm.radius] at hsegment
    have hlast := (Segment.yields_inBoxAndBall hs.x.isReal hs.direction.isReal hm.admitZero (real ρ)
      true).of_eq_ok hsegment first _ rfl
    obtain rfl := (Vec.yields_onLine s.x s.direction (real t)).of_eq_ok hy
    refine .inl ⟨t, Vec.eq_of_clamp (hlast.1 t rfl) hclamp, fun hfits ↦ real_le.mp ?_⟩
    have hforwards := Segment.yields_inBoxAndBall_forwards hs.x.isReal hs.direction.isReal
      hm.admitZero (hm.length_lower.trans hm.length_upper.symm)
      (hs.x.length_eq.trans hs.direction.length_eq.symm) hfits hs.x_lt
    exact hforwards.of_eq_ok hsegment first _ rfl
  next => exact hstay h

/-- At the boundary of the ball, the iterate makes a part of the full step, or it is clipped. -/
theorem onLine_or_clips_of_towardsBoundary (hm : model.PosedOver a ρ) (hs : s.Confined model ρ)
    {t : ℝ} (h : towardsBoundary model s.counted (Vec.scale s.direction (real t)) = .ok x) :
    (∃ θ : ℝ, x = Vec.onLine s.x s.direction (real (t * θ)) ∧ 0 ≤ θ ∧ θ ≤ 1)
      ∨ model.Clips s x := by
  obtain ⟨segment, hsegment, h⟩ := bind_eq_ok_iff.mp h
  obtain _ | ⟨first, last⟩ := segment
  · refine (eq_or_clips h).imp_left fun hx ↦ ⟨0, ?_, le_rfl, zero_le_one⟩
    rw [mul_zero, hs.onLine_zero, hx]
    rfl
  obtain ⟨y, hy, hclamp⟩ := bind_eq_ok_iff.mp h
  obtain ⟨hfits, hunit⟩ := (Segment.yields_inBoxAndBall hs.x.isReal (hs.direction.scale t).isReal
    hm.admitZero model.radius false).of_eq_ok hsegment first last rfl
  obtain ⟨θ, rfl, hzero, hone⟩ := hunit rfl
  obtain rfl := (Vec.yields_onLine s.x _ (real θ)).of_eq_ok hy
  refine .inl ⟨θ, ?_, hzero, hone⟩
  rw [← Vec.onLine_scale hs.direction.isReal]
  exact Vec.eq_of_clamp (hfits θ rfl) hclamp

end TangentialStep

end LogBarrier
