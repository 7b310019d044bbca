import PZero.Proofs.Machine.Advance

namespace PZero.Machine

open IR

def Spelled (code : List Instr) : Prop := ∀ i ∈ code, i.isWhole = true

structure Frame.Whole (frame : Frame) : Prop where
  body : Spelled frame.function.body
  ahead : Spelled frame.ahead

structure State.Whole (s : State) : Prop where
  frame : s.frame.Whole
  callers : ∀ x ∈ s.callers, x.1.Whole ∧ x.2.isWhole = true

def Image.Whole (image : Image) : Prop := ∀ F ∈ image.module.functions, Spelled F.body

def Context.isWhole : Context → Bool
  | .instr i => i.isWhole
  | _ => true

theorem Failure.isReported_of_trace {failure : Failure} (hf : failure.fault.isReported = true)
    (ht : ∀ c ∈ failure.trace, c.isWhole = true) : failure.isReported = true := by
  rw [isReported, hf, Bool.true_and, List.all_eq_true]
  intro c hc
  have hw := ht c hc
  cases c <;> exact hw

/-- What comes next is whole, and a failure has a way to it that can be spelled. -/
def Next.Whole : Next → Prop
  | .running s => s.Whole
  | .returned _ _ => True
  | .failed failure _ => ∀ c ∈ failure.trace, c.isWhole = true

variable {image : Image} {s : State}

theorem Frame.Whole.finish {frame : Frame} (h : frame.Whole) (i : Instr) (v : Value) :
    (frame.finish i v).Whole := by
  unfold Frame.finish
  split
  · exact ⟨h.body, h.ahead⟩
  · exact h

theorem Frame.Whole.enter {F : Function} (h : Spelled F.body) (args : List Value) :
    (Frame.enter F args).Whole :=
  ⟨h, h⟩

theorem spelled_after? {label : Bytes} {code rest : List Instr} (h : Spelled code)
    (ha : Frame.after? label code = some rest) : Spelled rest := by
  induction code with
  | nil => cases ha
  | cons i code ih =>
    have hc : Spelled code := fun j hj ↦ h j (List.mem_cons_of_mem _ hj)
    simp only [Frame.after?] at ha
    split at ha
    · rename_i found hf
      cases ha
      exact ih hc hf
    · split at ha
      · split at ha
        · cases ha
          exact hc
        · cases ha
      · cases ha

theorem Frame.Whole.jump {frame frame' : Frame} {target : Bytes} (h : frame.Whole)
    (hj : frame.jump target = .ok frame') : frame'.Whole := by
  simp only [Frame.jump] at hj
  split at hj
  · rename_i ahead ha
    cases hj
    exact ⟨h.body, spelled_after? h.body ha⟩
  · cases hj

theorem State.Whole.trace (h : s.Whole) : ∀ c ∈ s.trace, c.isWhole = true := by
  intro c hc
  simp only [State.trace, List.mem_append, List.mem_flatMap, List.mem_reverse,
    List.mem_singleton] at hc
  rcases hc with ⟨x, hx, hc⟩ | rfl
  · simp only [List.mem_cons, List.not_mem_nil, or_false] at hc
    rcases hc with rfl | rfl
    · rfl
    · exact (h.callers x hx).2
  · rfl

theorem State.Whole.fail (h : s.Whole) (fault : Fault) : (s.fail fault).Whole :=
  h.trace

theorem State.Whole.failAt {i : Instr} (h : s.Whole) (hi : i.isWhole = true) (fault : Fault) :
    (s.failAt i fault).Whole := by
  intro c hc
  rcases List.mem_append.1 hc with hc | hc
  · exact h.trace c hc
  · rw [List.mem_singleton.1 hc]
    exact hi

theorem State.Whole.leave (h : s.Whole) (v : Value) : (s.leave v).Whole := by
  unfold State.leave
  split
  · trivial
  · rename_i frame call rest hs
    have hc := h.callers
    rw [hs] at hc
    obtain ⟨hf, hr⟩ := List.forall_mem_cons.1 hc
    exact ⟨hf.1.finish call v, hr⟩

theorem State.Whole.call {i : Instr} {callee : Bytes} {args : List Value} (hm : image.Whole)
    (h : s.Whole) (hi : i.isWhole = true) : (s.call image i callee args).Whole := by
  unfold State.call
  split
  · rename_i F hF
    have hb : Spelled F.body := hm F (List.mem_reverse.1 (List.mem_of_find?_eq_some hF))
    split
    · exact h.failAt hi _
    · split
      · exact h.failAt hi _
      · exact ⟨.enter hb args, List.forall_mem_cons.2 ⟨⟨h.frame, hi⟩, h.callers⟩⟩
  · split
    · split
      · exact ⟨h.frame.finish i _, h.callers⟩
      · exact h.failAt hi _
    · exact h.failAt hi _

theorem State.Whole.execute {i : Instr} (hm : image.Whole) (h : s.Whole) (hi : i.isWhole = true) :
    (s.execute image i).Whole := by
  unfold State.execute
  split
  · exact ⟨⟨h.frame.body, h.frame.ahead⟩, h.callers⟩
  · split
    · rename_i frame hj
      exact ⟨h.frame.jump hj, h.callers⟩
    · exact h.fail _
  · split
    · split
      · rename_i frame hj
        exact ⟨h.frame.jump hj, h.callers⟩
      · exact h.fail _
    · exact h.fail _
  · split
    · exact h.leave _
    · exact h.fail _
  · exact h.leave _
  · split
    · exact h.call hm hi
    · exact h.failAt hi _
  · split
    · exact h.call hm hi
    · exact h.failAt hi _
  · split
    · exact ⟨h.frame.finish i _, h.callers⟩
    · exact h.failAt hi _

theorem step_whole (hm : image.Whole) (h : s.Whole) : (step image s).Whole := by
  rcases step_cases image s with ⟨-, hs⟩ | ⟨-, -, hs⟩ | ⟨i, ahead, ha, -, hs⟩
  · rw [hs]
    exact h.fail _
  · rw [hs]
    exact State.Whole.fail (s := s.counted image) ⟨h.frame, h.callers⟩ _
  · have hahead := h.frame.ahead
    rw [ha] at hahead
    obtain ⟨hi, hrest⟩ := List.forall_mem_cons.1 hahead
    rw [hs]
    exact State.Whole.execute hm ⟨⟨h.frame.body, hrest⟩, h.callers⟩ hi

theorem advance_whole (hm : image.Whole) {next : Next} (h : next.Whole) (n : Nat) :
    (next.advance image n).Whole := by
  induction n generalizing next with
  | zero =>
    rw [Next.advance_zero]
    exact h
  | succ n ih =>
    cases next with
    | running s => exact ih (step_whole hm h)
    | returned v s =>
      rw [Next.advance_returned]
      exact h
    | failed failure s =>
      rw [Next.advance_failed]
      exact h

end PZero.Machine
