import PZero.Proofs.Machine.Reports

namespace PZero.Machine

open IR

/-- The state in which a call of `main` starts. -/
def Session.entry (session : Session) (F : Function) : State :=
  ⟨session.memory, #[], session.steps, session.depth + 1, .enter F [], []⟩

def Limits.depth (limits : Limits) : Int :=
  if limits.maxDepth = 0 then usualDepth else limits.maxDepth

section Depth

variable {image : Image} {s : State}

/-- The functions that are active when a run is over. -/
def Next.ground : Next → Int
  | .running s => s.unwind.depth
  | .returned _ s | .failed _ s => s.depth

theorem leave_ground (s : State) (v : Value) : (s.leave v).ground = s.unwind.depth := by
  unfold State.leave
  split
  · rename_i hc
    simp [Next.ground, State.unwind, hc]
  · rename_i hc
    simp only [Next.ground, State.unwind, hc, List.length_cons]
    omega

theorem call_ground (s : State) (i : Instr) (callee : Bytes) (args : List Value) :
    (s.call image i callee args).ground = s.unwind.depth := by
  unfold State.call
  split
  · split
    · rfl
    · split
      · rfl
      · simp only [Next.ground, State.unwind, List.length_cons]
        omega
  · split
    · split <;> rfl
    · rfl

theorem execute_ground (s : State) (i : Instr) :
    (s.execute image i).ground = s.unwind.depth := by
  unfold State.execute
  split
  · rfl
  · split <;> rfl
  · split
    · split <;> rfl
    · rfl
  · split
    · exact leave_ground s _
    · rfl
  · exact leave_ground s _
  · split
    · exact call_ground s _ _ _
    · rfl
  · split
    · exact call_ground s _ _ _
    · rfl
  · split <;> rfl

theorem step_ground (image : Image) (s : State) : (step image s).ground = s.unwind.depth := by
  rcases step_cases image s with ⟨-, hs⟩ | ⟨-, -, hs⟩ | ⟨i, ahead, -, -, hs⟩ <;> rw [hs]
  · rfl
  · rfl
  · exact execute_ground { s.counted image with frame := { s.frame with ahead } } i

theorem advance_ground (image : Image) (n : Nat) (next : Next) :
    (next.advance image n).ground = next.ground := by
  induction n generalizing next with
  | zero => rw [Next.advance_zero]
  | succ n ih =>
    cases next with
    | running s => rw [Next.advance_succ, ih, step_ground]; rfl
    | returned v s => rw [Next.advance_returned]
    | failed failure s => rw [Next.advance_failed]

end Depth

variable {session : Session} {F : Function}

theorem main_eq_noMain (hF : session.image.function? (ascii "main") = none) (fuel : Nat) :
    session.main fuel = some ⟨.error ⟨[], .noMain⟩, [], session⟩ := by
  simp only [Session.main, hF]

theorem main_eq_takesParameters (hF : session.image.function? (ascii "main") = some F)
    (hps : F.params ≠ []) (fuel : Nat) :
    session.main fuel = some ⟨.error ⟨[], .mainTakesParameters⟩, [], session⟩ := by
  simp only [Session.main, hF, if_pos hps]

theorem main_eq_run (hF : session.image.function? (ascii "main") = some F) (hps : F.params = [])
    (hd : session.depth < session.image.maxDepth) (fuel : Nat) :
    session.main fuel = run session.image fuel (session.entry F) := by
  have hle : ¬session.depth ≥ session.image.maxDepth := by omega
  simp only [Session.main, hF, hps, ne_eq, not_true_eq_false, if_false, hle]
  rfl

theorem main_eq_depthLimit (hF : session.image.function? (ascii "main") = some F)
    (hps : F.params = []) (hd : ¬session.depth < session.image.maxDepth) (fuel : Nat) :
    session.main fuel =
      some ⟨.error ⟨[], .depthLimit session.image.maxDepth⟩, [], session⟩ := by
  have hle : session.depth ≥ session.image.maxDepth := by omega
  simp only [Session.main, hF, hps, ne_eq, not_true_eq_false, if_false, hle, if_true]

theorem entry_ground : (Next.running (session.entry F)).ground = session.depth := by
  simp [Next.ground, State.unwind, Session.entry]

theorem session_of_ended {image : Image} {next : Next} {ended : Ended}
    (h : next.ended? image = some ended) : ended.session = next.state.session image := by
  cases next with
  | running s => cases h
  | returned v s | failed failure s =>
    cases h
    rfl

theorem main_image {fuel : Nat} {ended : Ended} (h : session.main fuel = some ended) :
    ended.session.image = session.image := by
  simp only [Session.main, run_eq] at h
  split at h
  · cases h
    rfl
  · split at h
    · cases h
      rfl
    · split at h
      · cases h
        rfl
      · rw [session_of_ended h]
        rfl

theorem depth_of_ended {image : Image} {next : Next} {ended : Ended}
    (h : next.ended? image = some ended) : ended.session.depth = next.ground := by
  cases next with
  | running s => cases h
  | returned v s | failed failure s =>
    cases h
    rfl

theorem main_depth {fuel : Nat} {ended : Ended} (h : session.main fuel = some ended) :
    ended.session.depth = session.depth := by
  cases hF : session.image.function? (ascii "main") with
  | none =>
    rw [main_eq_noMain hF] at h
    cases h
    rfl
  | some F =>
    by_cases hps : F.params = []
    · by_cases hd : session.depth < session.image.maxDepth
      · rw [main_eq_run hF hps hd, run_eq] at h
        rw [depth_of_ended h, advance_ground, entry_ground]
      · rw [main_eq_depthLimit hF hps hd] at h
        cases h
        rfl
    · rw [main_eq_takesParameters hF hps] at h
      cases h
      rfl

theorem entry_whole (hw : session.image.Whole)
    (hF : session.image.function? (ascii "main") = some F) :
    (Next.running (session.entry F)).Whole := by
  have hb : Spelled F.body := hw F (List.mem_reverse.1 (List.mem_of_find?_eq_some hF))
  exact ⟨.enter hb [], fun x hx ↦ (List.not_mem_nil hx).elim⟩

end PZero.Machine
