import PZero.Proofs.Machine.Advance
import PZero.Proofs.Semantics.Eval

namespace PZero.Refinement

open Machine Semantics

/-- The fault that the machine reports for a trap. -/
def faultOf (image : Image) : Trap → Fault
  | .divisionByZero => .divisionByZero
  | .divisionOverflow => .divisionOverflow
  | .depth => .depthLimit image.maxDepth

/-- A run gets somewhere in a number of steps, and `R` holds of some store in every state on the
way. -/
structure Leads (image : Image) (R : Store → State → Prop) (k : Nat) (next next' : Next) :
    Prop where
  run : next.advance image k = next'
  along : ∀ j < k, ∀ st, next.advance image j = .running st → ∃ w, R w st

namespace Leads

variable {image : Image} {R : Store → State → Prop} {j k : Nat} {next next' : Next} {st st' : State}

theorem refl (next : Next) : Leads image R 0 next next :=
  ⟨Next.advance_zero next, fun _ hj ↦ absurd hj (Nat.not_lt_zero _)⟩

theorem step (hr : ∃ w, R w st) (h : Leads image R k (step image st) next') :
    Leads image R (k + 1) (.running st) next' where
  run := h.run
  along
    | 0, _, _, hs => Next.running.inj hs ▸ hr
    | j + 1, hj, t, hs => h.along j (Nat.lt_of_succ_lt_succ hj) t hs

theorem trans (h : Leads image R k next (.running st)) (h' : Leads image R j (.running st) next') :
    Leads image R (k + j) next next' where
  run := by rw [Next.advance_add, h.run, h'.run]
  along i hi t ht := by
    by_cases hk : i < k
    · exact h.along i hk t ht
    · obtain ⟨n, rfl⟩ := Nat.exists_eq_add_of_le (Nat.le_of_not_lt hk)
      rw [Next.advance_add, h.run] at ht
      exact h'.along n (by omega) t ht

theorem one (hr : ∃ w, R w st) (hs : Machine.step image st = next') :
    Leads image R 1 (.running st) next' :=
  .step hr (hs ▸ .refl _)

theorem two {st₁ : State} (hr : ∃ w, R w st) (hs : Machine.step image st = .running st₁)
    (hr₁ : ∃ w, R w st₁) (hs₁ : Machine.step image st₁ = next') :
    Leads image R 2 (.running st) next' :=
  .step hr (hs ▸ .one hr₁ hs₁)

end Leads

/-- What comes next agrees with an outcome. `Q` holds where a value is reached, `R` of the store
where a trap stops the machine, and of some store in every state on the way. -/
def Simulates {α : Type} (image : Image) (R : Store → State → Prop) (clock : Nat) (next : Next)
    (outcome : EStateM.Result Stop Store α) (Q : α → Store → State → Prop) : Prop :=
  match outcome with
  | .ok a w => ∃ k st, Leads image R k next (.running st) ∧ Q a w st
  | .error (.trap cause) w =>
    ∃ k failure st, Leads image R k next (.failed failure st) ∧
      failure.fault = faultOf image cause ∧ R w st
  | .error .timeout _ => ∀ k < clock, ∃ st, next.advance image k = .running st ∧ ∃ w, R w st
  | .error .stuck _ => False

namespace Simulates

variable {α β : Type} {image : Image} {R : Store → State → Prop} {clock : Nat} {next : Next}
  {st : State} {w : Store} {Q : α → Store → State → Prop}

theorem ok {a : α} (h : Q a w st) : Simulates image R clock (.running st) (.ok a w) Q :=
  ⟨0, st, .refl _, h⟩

theorem trap {cause : Trap} {failure : Failure} (hf : failure.fault = faultOf image cause)
    (h : R w st) : Simulates image R clock (.failed failure st) (.error (.trap cause) w) Q :=
  ⟨0, failure, st, .refl _, hf, h⟩

theorem extend {outcome : EStateM.Result Stop Store α} {Q' : α → Store → State → Prop}
    (h : Simulates image R clock next outcome Q)
    (hq : ∀ a w st, Q a w st →
      ∃ k st', Leads image R k (.running st) (.running st') ∧ Q' a w st') :
    Simulates image R clock next outcome Q' := by
  match outcome, h with
  | .ok a w, ⟨k, st, hk, h⟩ =>
    obtain ⟨j, st', hj, h'⟩ := hq a w st h
    exact ⟨k + j, st', hk.trans hj, h'⟩
  | .error (.trap cause) w, h => exact h
  | .error .timeout w, h => exact h

theorem mono {outcome : EStateM.Result Stop Store α} {Q' : α → Store → State → Prop}
    (h : Simulates image R clock next outcome Q) (hq : ∀ a w st, Q a w st → Q' a w st) :
    Simulates image R clock next outcome Q' :=
  h.extend fun a w st h ↦ ⟨0, st, .refl _, hq a w st h⟩

theorem clock_le {outcome : EStateM.Result Stop Store α} {clock' : Nat}
    (h : Simulates image R clock next outcome Q) (hle : clock' ≤ clock) :
    Simulates image R clock' next outcome Q := by
  match outcome, h with
  | .ok a w, h => exact h
  | .error (.trap cause) w, h => exact h
  | .error .timeout w, h => exact fun k hk ↦ h k (by omega)

theorem after {outcome : EStateM.Result Stop Store α} {k : Nat}
    (hk : Leads image R k next (.running st))
    (h : Simulates image R clock (.running st) outcome Q) :
    Simulates image R (k + clock) next outcome Q := by
  match outcome, h with
  | .ok a w, ⟨j, t, hj, h⟩ => exact ⟨k + j, t, hk.trans hj, h⟩
  | .error (.trap cause) w, ⟨j, failure, t, hj, h⟩ => exact ⟨k + j, failure, t, hk.trans hj, h⟩
  | .error .timeout w, h =>
    intro j hj
    by_cases hlt : j < k
    · obtain ⟨t, ht⟩ := Next.running_of_le hk.run (Nat.le_of_lt hlt)
      exact ⟨t, ht, hk.along j hlt t ht⟩
    · obtain ⟨i, rfl⟩ := Nat.exists_eq_add_of_le (Nat.le_of_not_lt hlt)
      obtain ⟨t, ht, hr⟩ := h i (by omega)
      exact ⟨t, by rw [Next.advance_add, hk.run, ht], hr⟩

theorem step_succ {outcome : EStateM.Result Stop Store α} (hr : ∃ w, R w st)
    (h : Simulates image R clock (step image st) outcome Q) :
    Simulates image R (clock + 1) (.running st) outcome Q := by
  match outcome, h with
  | .ok a w, ⟨j, t, hj, h⟩ => exact ⟨j + 1, t, hj.step hr, h⟩
  | .error (.trap cause) w, ⟨j, failure, t, hj, h⟩ => exact ⟨j + 1, failure, t, hj.step hr, h⟩
  | .error .timeout w, h =>
    intro j hj
    cases j with
    | zero => exact ⟨st, rfl, hr⟩
    | succ j => exact h j (by omega)

theorem step {outcome : EStateM.Result Stop Store α} (hr : ∃ w, R w st)
    (h : Simulates image R clock (Machine.step image st) outcome Q) :
    Simulates image R clock (.running st) outcome Q :=
  (h.step_succ hr).clock_le (Nat.le_succ clock)

theorem bind {a : Eval α} {f : α → Eval β} {Q' : β → Store → State → Prop}
    (h : Simulates image R clock next (a w) Q)
    (hf : ∀ x w₁ st₁, Q x w₁ st₁ → Simulates image R clock (.running st₁) (f x w₁) Q') :
    Simulates image R clock next ((a >>= f) w) Q' := by
  change Simulates image R clock next (EStateM.bind a f w) Q'
  unfold EStateM.bind
  match a w, h with
  | .ok x w₁, ⟨k, st₁, hk, h⟩ => exact (after hk (hf x w₁ st₁ h)).clock_le (Nat.le_add_left _ _)
  | .error (.trap cause) w, h => exact h
  | .error .timeout w, h => exact h

theorem select {v : Semantics.Value} (hv : v.type = .bool) {yes no : Eval α}
    (hy : v = .bool true → Simulates image R clock next (yes w) Q)
    (hn : v = .bool false → Simulates image R clock next (no w) Q) :
    Simulates image R clock next (Semantics.select v yes no w) Q := by
  match v, hv with
  | .bool true, _ => exact hy rfl
  | .bool false, _ => exact hn rfl

end Simulates

end PZero.Refinement
