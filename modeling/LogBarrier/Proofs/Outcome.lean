import LogBarrier.Vec

/-!
# Outcomes of fallible computations

A computation that ends in a fault gives no value, and most of what is proved about the algorithms
is about the values they give. A computation *ensures* a property if its value has the property
and if only faults that are allowed occur.

The one fault that is followed throughout is that of a slack which is not positive. A computation
*yields* a property if it does not end in this fault, whatever the lengths of its arguments are, and
it is *defined* if it does not end in any other, whatever the numbers in its arguments are.
-/

namespace LogBarrier

variable {β γ : Type}

/-- The value of the computation has the property, and a fault is one of those that are allowed. -/
def Ensures (allowed : Fault → Prop) (P : β → Prop) : Except Fault β → Prop
  | .ok b => P b
  | .error cause => allowed cause

/-- The value of the computation has the property, and a fault is not that of a slack. -/
abbrev Yields (P : β → Prop) : Except Fault β → Prop := Ensures (· ≠ .slackNotPositive) P

/-- The value of the computation has the property, and a fault is that of a slack. -/
abbrev Defined (P : β → Prop) : Except Fault β → Prop := Ensures (· = .slackNotPositive) P

namespace Ensures

variable {allowed : Fault → Prop} {P : β → Prop} {Q : γ → Prop}

theorem ok {b : β} (h : P b) : Ensures allowed P (.ok b) := h

theorem pure {b : β} (h : P b) : Ensures allowed P (Pure.pure b) := h

theorem error {cause : Fault} (h : allowed cause) :
    Ensures allowed P (.error cause : Except Fault β) := h

theorem of_exists {e : Except Fault β} (h : ∃ b, e = .ok b ∧ P b) : Ensures allowed P e := by
  obtain ⟨b, rfl, hb⟩ := h
  exact hb

/-- The rule for a sequence of two computations. -/
theorem bind {e : Except Fault β} {f : β → Except Fault γ} (he : Ensures allowed P e)
    (hf : ∀ b, P b → Ensures allowed Q (f b)) : Ensures allowed Q (e >>= f) := by
  cases e with
  | ok b => exact hf b he
  | error cause => exact he

/-- The rule for a sequence whose second part may rely on where its argument comes from. -/
theorem bind_eq {e : Except Fault β} {f : β → Except Fault γ} (he : Ensures allowed P e)
    (hf : ∀ b, e = .ok b → P b → Ensures allowed Q (f b)) : Ensures allowed Q (e >>= f) := by
  cases e with
  | ok b => exact hf b rfl he
  | error cause => exact he

theorem mono {P' : β → Prop} {e : Except Fault β} (he : Ensures allowed P e)
    (h : ∀ b, P b → P' b) : Ensures allowed P' e := by
  cases e with
  | ok b => exact h b he
  | error cause => exact he

theorem mono_eq {P' : β → Prop} {e : Except Fault β} (he : Ensures allowed P e)
    (h : ∀ b, e = .ok b → P b → P' b) : Ensures allowed P' e := by
  cases e with
  | ok b => exact h b rfl he
  | error cause => exact he

theorem and {P' : β → Prop} {e : Except Fault β} (he : Ensures allowed P e)
    (he' : Ensures allowed P' e) : Ensures allowed (fun b ↦ P b ∧ P' b) e := by
  cases e with
  | ok b => exact ⟨he, he'⟩
  | error cause => exact he

theorem foldlM {f : β → γ → Except Fault β} {l : List γ} {b : β} (hb : P b)
    (hf : ∀ b, P b → ∀ c ∈ l, Ensures allowed P (f b c)) : Ensures allowed P (l.foldlM f b) := by
  induction l generalizing b with
  | nil => exact Ensures.pure hb
  | cons c l ih =>
    rw [List.foldlM_cons]
    exact (hf b hb c List.mem_cons_self).bind fun b' hb' ↦
      ih hb' fun b hb c' hc' ↦ hf b hb c' (List.mem_cons_of_mem c hc')

theorem of_eq_ok {e : Except Fault β} {b : β} (he : Ensures allowed P e) (h : e = .ok b) :
    P b := by
  rw [h] at he
  exact he

theorem exists_ok {e : Except Fault β} (he : Ensures (fun _ ↦ False) P e) :
    ∃ b, e = .ok b ∧ P b := by
  cases e with
  | ok b => exact ⟨b, rfl, he⟩
  | error cause => exact he.elim

/-- A computation gives a value if the faults that are left to it are excluded. -/
theorem exists_ok_of_excluded {Q : β → Prop} {e : Except Fault β} (he : Ensures allowed P e)
    (hexcluded : Ensures (fun cause ↦ ¬allowed cause) Q e) : ∃ b, e = .ok b := by
  cases e with
  | ok b => exact ⟨b, rfl⟩
  | error cause => exact absurd he hexcluded

theorem allowed_of_eq_error {e : Except Fault β} {cause : Fault} (he : Ensures allowed P e)
    (h : e = .error cause) : allowed cause := by
  rw [h] at he
  exact he

end Ensures

/-- The rule for a check, which the rest of the computation may rely on. -/
theorem yields_require {Q : γ → Prop} {cause : Fault} {condition : Prop} [Decidable condition]
    {f : Unit → Except Fault γ} (hcause : cause ≠ .slackNotPositive)
    (hf : condition → Yields Q (f ())) : Yields Q (cause.require condition >>= f) := by
  rw [Fault.require]
  split
  next h => exact hf h
  next => exact Ensures.error hcause

/-! ## Faults of computations that can fail -/

def FaultsWithin {ε : Type} (allowed : Fault → Prop) (e : Except (Failure ε) β) : Prop :=
  ∀ cause, e = .error (.fault cause) → allowed cause

namespace FaultsWithin

variable {ε : Type} {allowed : Fault → Prop}

theorem ok (b : β) : FaultsWithin allowed (.ok b : Except (Failure ε) β) := nofun

theorem error {failure : Failure ε}
    (h : FaultsWithin allowed (.error failure : Except (Failure ε) β)) :
    FaultsWithin allowed (.error failure : Except (Failure ε) γ) := by
  rintro cause ⟨⟩
  exact h cause rfl

theorem ofFault {P : β → Prop} {e : Except Fault β} (he : Ensures allowed P e) :
    FaultsWithin allowed (Failure.ofFault e : Except (Failure ε) β) := by
  cases e with
  | ok b => exact nofun
  | error cause =>
    rintro cause ⟨⟩
    exact he

theorem bind_ofFault {P : β → Prop} {e : Except Fault β} {f : β → Except (Failure ε) γ}
    (he : Ensures allowed P e) (hf : ∀ b, P b → FaultsWithin allowed (f b)) :
    FaultsWithin allowed (Failure.ofFault e >>= f) := by
  cases e with
  | ok b => exact hf b he
  | error cause =>
    rintro cause ⟨⟩
    exact he

end FaultsWithin

abbrev NoSlackFault {ε : Type} (e : Except (Failure ε) β) : Prop :=
  FaultsWithin (· ≠ .slackNotPositive) e

/-! ## Results of sequences -/

theorem ofFault_eq_ok_iff {ε : Type} {e : Except Fault β} {b : β} :
    (Failure.ofFault e : Except (Failure ε) β) = .ok b ↔ e = .ok b := by
  cases e <;> simp [Failure.ofFault]

theorem bind_eq_ok_iff {ε : Type} {e : Except ε β} {f : β → Except ε γ} {c : γ} :
    e >>= f = .ok c ↔ ∃ b, e = .ok b ∧ f b = .ok c := by
  cases e with
  | error cause => simp [bind, Except.bind]
  | ok b => simp [bind, Except.bind]

theorem ok_bind {ε : Type} (b : β) (f : β → Except ε γ) : Except.ok b >>= f = f b := rfl

theorem bind_congr_of_ok {ε : Type} {e : Except ε β} {f f' : β → Except ε γ}
    (h : ∀ b, e = .ok b → f b = f' b) : e >>= f = e >>= f' := by
  cases e with
  | error cause => rfl
  | ok b => exact h b rfl

/-- Computations that agree as far as `g` can see, followed by others that see no more. -/
theorem bind_congr_map {ε δ : Type} {g : β → δ} {e e' : Except ε β} {f f' : β → Except ε γ}
    (he : g <$> e = g <$> e') (hf : ∀ b b', g b = g b' → f b = f' b') : e >>= f = e' >>= f' := by
  cases e with
  | error cause =>
    cases e' with
    | error cause' =>
      cases he
      rfl
    | ok b' => cases he
  | ok b =>
    cases e' with
    | error cause' => cases he
    | ok b' => exact hf b b' (Except.ok.inj he)

theorem map_bind_congr {ε δ δ' : Type} {g : β → δ} {k : γ → δ'} {e e' : Except ε β}
    {f f' : β → Except ε γ} (he : g <$> e = g <$> e')
    (hf : ∀ b b', g b = g b' → k <$> f b = k <$> f' b') : k <$> (e >>= f) = k <$> (e' >>= f') := by
  rw [map_bind, map_bind]
  exact bind_congr_map he hf

theorem map_ofFault {ε δ : Type} (g : β → δ) (e : Except Fault β) :
    g <$> (Failure.ofFault e : Except (Failure ε) β) = Failure.ofFault (g <$> e) := by
  cases e <;> rfl

theorem ofFault_ne_error {ε : Type} {e : Except Fault β} {cause : ε} :
    (Failure.ofFault e : Except (Failure ε) β) ≠ .error (.error cause) := by
  cases e <;> simp [Failure.ofFault]

theorem ofFault_ne_unfinished {ε : Type} {e : Except Fault β} :
    (Failure.ofFault e : Except (Failure ε) β) ≠ .error .unfinished := by
  cases e <;> simp [Failure.ofFault]

theorem bind_ofFault_ne_unfinished {ε : Type} {e : Except Fault β}
    {f : β → Except (Failure ε) γ} (hf : ∀ b, f b ≠ .error .unfinished) :
    Failure.ofFault e >>= f ≠ .error .unfinished := by
  cases e with
  | error cause => exact nofun
  | ok b => exact hf b

/-- An error comes from behind a computation that can only fault. -/
theorem bind_ofFault_eq_error_iff {ε : Type} {e : Except Fault β} {f : β → Except (Failure ε) γ}
    {cause : ε} :
    Failure.ofFault e >>= f = .error (.error cause) ↔
      ∃ b, e = .ok b ∧ f b = .error (.error cause) := by
  cases e with
  | error fault => simp [Failure.ofFault, bind, Except.bind]
  | ok b => simp [Failure.ofFault, bind, Except.bind]

end LogBarrier
