import Mathlib.Tactic.Common
import PZero.Machine.Run

namespace PZero.Machine

open IR

section Step

variable {image : Image} {s : State}

theorem step_ended (h : s.frame.ahead = []) : step image s = s.fail .noTerminator := by
  simp only [step, h]

theorem step_stopped (h : s.frame.ahead ≠ [])
    (hx : image.exceeds (s.counted image).steps = true) :
    step image s = (s.counted image).fail (.stepLimit image.maxSteps.toInt) := by
  obtain ⟨i, ahead, ha⟩ := List.exists_cons_of_ne_nil h
  simp only [step, ha, hx, if_true]

theorem step_taken {i : Instr} {ahead : List Instr} (h : s.frame.ahead = i :: ahead)
    (hx : image.exceeds (s.counted image).steps = false) :
    step image s =
      State.execute image { s.counted image with frame := { s.frame with ahead } } i := by
  simp only [step, h, hx, Bool.false_eq_true, if_false]

theorem step_unbounded {i : Instr} {ahead : List Instr} (hu : image.maxSteps ≤ 0)
    (h : s.frame.ahead = i :: ahead) :
    step image s = State.execute image { s with frame := { s.frame with ahead } } i := by
  have hn := Int64.not_lt.2 hu
  have hx : image.exceeds (s.counted image).steps = false := by simp [Image.exceeds, hn]
  have hc : s.counted image = s := by simp only [State.counted, Image.count, hn, if_false]
  rw [step_taken h hx, hc]

/-- What a step does: nothing is left of the body, or the instruction that is counted is past the
bound, or it is executed. -/
theorem step_cases (image : Image) (s : State) :
    (s.frame.ahead = [] ∧ step image s = s.fail .noTerminator) ∨
    (s.frame.ahead ≠ [] ∧ image.exceeds (s.counted image).steps = true ∧
      step image s = (s.counted image).fail (.stepLimit image.maxSteps.toInt)) ∨
    ∃ i ahead, s.frame.ahead = i :: ahead ∧ image.exceeds (s.counted image).steps = false ∧
      step image s =
        State.execute image { s.counted image with frame := { s.frame with ahead } } i := by
  cases ha : s.frame.ahead with
  | nil => exact .inl ⟨rfl, step_ended ha⟩
  | cons i ahead =>
    have hne : s.frame.ahead ≠ [] := by simp [ha]
    cases hx : image.exceeds (s.counted image).steps with
    | true => exact .inr (.inl ⟨List.cons_ne_nil _ _, rfl, step_stopped hne hx⟩)
    | false => exact .inr (.inr ⟨i, ahead, rfl, rfl, step_taken ha hx⟩)

end Step

namespace Next

def state : Next → State
  | .running s | .returned _ s | .failed _ s => s

/-- At most `n` more steps; a run that has ended stays as it is. -/
def advance (image : Image) : Nat → Next → Next
  | 0, next => next
  | n + 1, .running s => advance image n (step image s)
  | _ + 1, ended => ended

variable {image : Image}

@[simp] theorem advance_zero (next : Next) : next.advance image 0 = next := by
  cases next <;> rfl

@[simp] theorem advance_returned (n : Nat) (v : Value) (s : State) :
    (returned v s).advance image n = returned v s := by
  cases n <;> rfl

@[simp] theorem advance_failed (n : Nat) (failure : Failure) (s : State) :
    (failed failure s).advance image n = failed failure s := by
  cases n <;> rfl

theorem advance_succ (n : Nat) (s : State) :
    (running s).advance image (n + 1) = (step image s).advance image n := rfl

theorem advance_add (m n : Nat) (next : Next) :
    next.advance image (m + n) = (next.advance image m).advance image n := by
  induction m generalizing next with
  | zero => rw [Nat.zero_add, advance_zero]
  | succ m ih =>
    cases next with
    | running s => rw [Nat.succ_add, advance_succ, advance_succ, ih]
    | returned v s => simp
    | failed failure s => simp

theorem running_of_le {m n : Nat} {next : Next} {s : State}
    (h : next.advance image n = .running s) (hle : m ≤ n) :
    ∃ t, next.advance image m = .running t := by
  obtain ⟨j, rfl⟩ := Nat.exists_eq_add_of_le hle
  rw [advance_add] at h
  cases hm : next.advance image m with
  | running t => exact ⟨t, rfl⟩
  | returned v t => simp [hm] at h
  | failed failure t => simp [hm] at h

theorem advance_eq_of_le {m n : Nat} {next : Next}
    (h : ∀ t, next.advance image m ≠ .running t) (hle : m ≤ n) :
    next.advance image n = next.advance image m := by
  obtain ⟨j, rfl⟩ := Nat.exists_eq_add_of_le hle
  rw [advance_add]
  cases hm : next.advance image m with
  | running t => exact absurd hm (h t)
  | returned v t => rw [advance_returned]
  | failed failure t => rw [advance_failed]

def ended? (image : Image) : Next → Option Ended
  | .running _ => none
  | .returned v s => some ⟨.ok (statusOf v), s.output.toList, s.session image⟩
  | .failed failure s => some ⟨.error failure, s.output.toList, s.session image⟩

end Next

theorem run_eq (image : Image) (fuel : Nat) (s : State) :
    run image fuel s = (Next.advance image fuel (.running s)).ended? image := by
  induction fuel generalizing s with
  | zero => rfl
  | succ fuel ih =>
    rw [run, Next.advance_succ]
    cases step image s with
    | running t => exact ih t
    | returned v t => simp [Next.ended?]
    | failed failure t => simp [Next.ended?]

end PZero.Machine
