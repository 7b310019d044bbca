import PZero.Proofs.Machine.Advance

namespace PZero.Machine

open IR

/-- Images of one module that differ only in their limits. -/
structure Image.Alike (image image' : Image) : Prop where
  module : image.module = image'.module
  globals : image.globals = image'.globals

def Image.unlimited (image : Image) : Image := { image with maxSteps := 0 }

variable {image image' : Image}

theorem Image.Alike.function? (h : image.Alike image') (name : Bytes) :
    image.function? name = image'.function? name := by
  rw [Image.function?, Image.function?, h.module]

theorem Image.Alike.hasExternal (h : image.Alike image') (name : Bytes) :
    image.hasExternal name = image'.hasExternal name := by
  rw [Image.hasExternal, Image.hasExternal, h.module]

mutual

theorem constant_alike (h : image.Alike image') :
    ∀ c : Constant, image.constant c = image'.constant c
  | .int bits value => by simp only [Image.constant]
  | .float kind bits => by cases kind <;> simp only [Image.constant]
  | .global name type => by simp only [Image.constant, h.globals]
  | .gep inBounds elem addr indices => by
    simp only [Image.constant, constant_alike h addr, indices_alike h indices]
  | .zext value target => by simp only [Image.constant, constant_alike h value]
  | .array elem values => by simp only [Image.constant]

theorem indices_alike (h : image.Alike image') :
    ∀ cs : List Constant, image.indices cs = image'.indices cs
  | [] => by simp only [Image.indices]
  | c :: cs => by simp only [Image.indices, constant_alike h c, indices_alike h cs]

end

theorem operand_alike (h : image.Alike image') (frame : Frame) (x : Operand) :
    frame.operand image x = frame.operand image' x := by
  cases x with
  | reg r => rfl
  | const c => exact constant_alike h c

theorem operands_alike (h : image.Alike image') (frame : Frame) (xs : List Operand) :
    frame.operands image xs = frame.operands image' xs := by
  induction xs with
  | nil => rfl
  | cons x xs ih => simp only [Frame.operands, operand_alike h, ih]

theorem incoming_alike (h : image.Alike image') (frame : Frame) (xs : List Incoming) :
    frame.incoming image xs = frame.incoming image' xs := by
  induction xs with
  | nil => rfl
  | cons x xs ih => simp only [Frame.incoming, operand_alike h, ih]

theorem effect_alike (h : image.Alike image') (memory : Memory) (frame : Frame) (i : Instr) :
    effect image memory frame i = effect image' memory frame i := by
  cases i <;> simp only [effect, operand_alike h, operands_alike h, incoming_alike h]

/-- The limits of an image are no wider than those of another one. -/
structure Image.Tighter (tight loose : Image) : Prop extends tight.Alike loose where
  steps : loose.maxSteps ≤ 0 ∨ 0 < tight.maxSteps ∧ tight.maxSteps ≤ loose.maxSteps
  depth : tight.maxDepth ≤ loose.maxDepth

theorem Image.tighter_unlimited (image : Image) : image.Tighter image.unlimited :=
  ⟨⟨rfl, rfl⟩, .inl (Int64.le_refl 0), Int.le_refl _⟩

variable {tight loose : Image}

theorem call_tighter (h : tight.Tighter loose) (s : State) (i : Instr) (callee : Bytes)
    (args : List Value) :
    s.call tight i callee args = s.call loose i callee args ∨
      (tight.maxDepth ≠ loose.maxDepth ∧
        s.call tight i callee args = s.failAt i (.depthLimit tight.maxDepth)) := by
  have hdepth := h.depth
  unfold State.call
  rw [h.toAlike.function?, h.toAlike.hasExternal]
  cases loose.function? callee with
  | none => exact .inl rfl
  | some f =>
    dsimp only
    by_cases hargs : args.length ≠ f.params.length
    · left
      rw [if_pos hargs, if_pos hargs]
    rw [if_neg hargs, if_neg hargs]
    by_cases hd : tight.maxDepth = loose.maxDepth
    · left
      rw [hd]
    by_cases ht : s.depth ≥ tight.maxDepth
    · right
      exact ⟨hd, if_pos ht⟩
    · left
      have hl : ¬s.depth ≥ loose.maxDepth := by omega
      rw [if_neg ht, if_neg hl]

theorem execute_tighter (h : tight.Tighter loose) (s : State) (i : Instr) :
    s.execute tight i = s.execute loose i ∨
      (tight.maxDepth ≠ loose.maxDepth ∧
        s.execute tight i = s.failAt i (.depthLimit tight.maxDepth)) := by
  cases i with
  | call dst result callee args =>
    simp only [State.execute, operands_alike h.toAlike]
    cases s.frame.operands loose args with
    | ok vs => exact call_tighter h s _ callee vs
    | error fault => exact .inl rfl
  | callVoid callee args =>
    simp only [State.execute, operands_alike h.toAlike]
    cases s.frame.operands loose args with
    | ok vs => exact call_tighter h s _ callee vs
    | error fault => exact .inl rfl
  | _ =>
    left
    simp only [State.execute, operand_alike h.toAlike, effect_alike h.toAlike]

def Next.recount (steps : Int64) : Next → Next
  | .running s => .running { s with steps }
  | .returned v s => .returned v { s with steps }
  | .failed failure s => .failed failure { s with steps }

section Recount

variable (s : State) (steps : Int64)

theorem fail_recount (fault : Fault) :
    State.fail { s with steps } fault = (s.fail fault).recount steps := rfl

theorem leave_recount (v : Value) :
    State.leave { s with steps } v = (s.leave v).recount steps := by
  unfold State.leave
  cases s.callers <;> rfl

theorem call_recount (i : Instr) (callee : Bytes) (args : List Value) :
    State.call image { s with steps } i callee args
      = (s.call image i callee args).recount steps := by
  unfold State.call
  cases image.function? callee with
  | some f =>
    dsimp only
    split
    · rfl
    · split <;> rfl
  | none =>
    dsimp only
    split
    · cases library s.memory callee args <;> rfl
    · rfl

theorem execute_recount (image : Image) (i : Instr) :
    State.execute image { s with steps } i = (s.execute image i).recount steps := by
  cases i with
  | label name => rfl
  | br target =>
    simp only [State.execute]
    cases s.frame.jump target <;> rfl
  | condBr cond then_ else_ =>
    simp only [State.execute]
    cases s.frame.operand image cond with
    | error fault => rfl
    | ok c =>
      dsimp only
      generalize s.frame.jump (if c.number ≠ 0 then then_ else else_) = landed
      cases landed <;> rfl
  | ret value =>
    simp only [State.execute]
    cases s.frame.operand image value with
    | ok v => exact leave_recount s steps v
    | error fault => rfl
  | retVoid => exact leave_recount s steps .nothing
  | call dst type callee args | callVoid callee args =>
    simp only [State.execute]
    cases s.frame.operands image args with
    | ok vs => exact call_recount s steps _ callee vs
    | error fault => rfl
  | _ =>
    simp only [State.execute]
    generalize effect image s.memory s.frame _ = found
    cases found <;> rfl

theorem execute_steps (i : Instr) : (s.execute image i).state.steps = s.steps := by
  have he := execute_recount s s.steps image i
  have hs : (s.execute image i).state.steps = ((s.execute image i).recount s.steps).state.steps :=
    congrArg (fun next : Next ↦ next.state.steps) he
  rw [hs]
  cases s.execute image i <;> rfl

end Recount

/-- What two images have counted that go the same way, unless only the first one has a bound. -/
inductive Image.InStep (tight loose : Image) : Int64 → Int64 → Prop
  | alike {steps : Int64} (h : tight.maxSteps = loose.maxSteps ∨
      tight.maxSteps ≤ 0 ∧ loose.maxSteps ≤ 0) : InStep tight loose steps steps
  | within {steps steps' : Int64} (h0 : 0 < tight.maxSteps)
      (hne : tight.maxSteps ≠ loose.maxSteps)
      (hsame : 0 < loose.maxSteps → steps = steps') : InStep tight loose steps steps'

theorem Image.Tighter.inStep (h : tight.Tighter loose) (steps : Int64) :
    tight.InStep loose steps steps := by
  by_cases h0 : 0 < tight.maxSteps
  · by_cases heq : tight.maxSteps = loose.maxSteps
    · exact .alike (.inl heq)
    · exact .within h0 heq fun _ ↦ rfl
  · have hl : loose.maxSteps ≤ 0 := h.steps.resolve_right fun hs ↦ h0 hs.1
    exact .alike (.inr ⟨Int64.not_lt.1 h0, hl⟩)

theorem exceeds_iff {steps : Int64} :
    image.exceeds steps = true ↔ 0 < image.maxSteps ∧ image.maxSteps < steps := by
  simp [Image.exceeds]

theorem Image.InStep.count {steps steps' : Int64} (h : tight.Tighter loose)
    (hc : tight.InStep loose steps steps') :
    (tight.exceeds (tight.count steps) = loose.exceeds (loose.count steps') ∧
      tight.InStep loose (tight.count steps) (loose.count steps') ∧
      (tight.exceeds (tight.count steps) = true → tight.maxSteps = loose.maxSteps)) ∨
    tight.exceeds (tight.count steps) = true ∧ tight.maxSteps ≠ loose.maxSteps := by
  cases hc with
  | alike he =>
    left
    have hx : tight.exceeds = loose.exceeds ∧ tight.count = loose.count := by
      rcases he with he | ⟨ht, hl⟩
      · simp only [funext_iff, Image.exceeds, Image.count, he, implies_true, and_self]
      · have ht := Int64.not_lt.2 ht
        have hl := Int64.not_lt.2 hl
        simp only [funext_iff, Image.exceeds, Image.count, ht, hl, false_and, if_false,
          implies_true, and_self]
    rw [hx.1, hx.2]
    refine ⟨rfl, .alike he, fun hlim ↦ ?_⟩
    rcases he with he | ⟨-, hl⟩
    · exact he
    · exact absurd (exceeds_iff.1 hlim).1 (Int64.not_lt.2 hl)
  | within h0 hne hsame =>
    by_cases hx : tight.exceeds (tight.count steps) = true
    · exact .inr ⟨hx, hne⟩
    · left
      have hin : tight.count steps ≤ tight.maxSteps :=
        Int64.not_lt.1 fun hlt ↦ hx (exceeds_iff.2 ⟨h0, hlt⟩)
      have hcount : 0 < loose.maxSteps → tight.count steps = loose.count steps' := fun hl ↦ by
        rw [Image.count, Image.count, if_pos h0, if_pos hl, hsame hl]
      refine ⟨?_, .within h0 hne hcount, fun ht ↦ absurd ht hx⟩
      rw [Bool.not_eq_true] at hx
      rw [hx, eq_comm, Bool.eq_false_iff, ne_eq, exceeds_iff]
      rintro ⟨hl, hlt⟩
      rw [← hcount hl] at hlt
      have hsteps : tight.maxSteps ≤ loose.maxSteps :=
        (h.steps.resolve_left (Int64.not_le.2 hl)).2
      exact Int64.not_lt.2 (Int64.le_trans hin hsteps) hlt

/-- A fault at a limit of an image that another image does not have. -/
def Image.StopsWith (tight loose : Image) (fault : Fault) : Prop :=
  fault = .stepLimit tight.maxSteps.toInt ∧ tight.maxSteps ≠ loose.maxSteps ∨
    fault = .depthLimit tight.maxDepth ∧ tight.maxDepth ≠ loose.maxDepth

/-- A run that is stopped in a state by a limit of an image that another image does not have. -/
def Next.StoppedIn (tight loose : Image) (s : State) (next : Next) : Prop :=
  ∃ failure t, next = .failed failure t ∧ tight.StopsWith loose failure.fault ∧
    t.memory = s.memory ∧ t.output = s.output

theorem step_tighter (h : tight.Tighter loose) {s : State} {steps : Int64}
    (hc : tight.InStep loose steps s.steps) :
    (∃ steps', step tight { s with steps } = (step loose s).recount steps' ∧
        tight.InStep loose steps' (step loose s).state.steps) ∨
      (step tight { s with steps }).StoppedIn tight loose s := by
  let s' : State := { s with steps }
  cases ha : s.frame.ahead with
  | nil =>
    rw [step_ended ha, step_ended (s := s') ha]
    exact .inl ⟨steps, fail_recount s steps _, hc⟩
  | cons i ahead =>
    have ha' : s'.frame.ahead = i :: ahead := ha
    have hne : s.frame.ahead ≠ [] := by simp [ha]
    rcases hc.count h with ⟨hx, hcount, hsame⟩ | ⟨hx, hne'⟩
    · cases hlim : loose.exceeds (s.counted loose).steps with
      | true =>
        have hlim' : tight.exceeds (s'.counted tight).steps = true := hx.trans hlim
        rw [step_stopped hne hlim, step_stopped (s := s') hne hlim', ← hsame hlim']
        exact .inl ⟨_, fail_recount (s.counted loose) _ _, hcount⟩
      | false =>
        let t : State := { s.counted loose with frame := { s.frame with ahead } }
        have ht := execute_recount t (tight.count steps) tight i
        rw [step_taken ha hlim, step_taken (s := s') ha' (hx.trans hlim)]
        rcases execute_tighter h t i with he | ⟨hne, he⟩
        · refine .inl ⟨tight.count steps, ht.trans (congrArg _ he), ?_⟩
          rw [execute_steps]
          exact hcount
        · exact .inr ⟨_, { t.unwind with steps := tight.count steps },
            ht.trans (congrArg (Next.recount _) he), .inr ⟨rfl, hne⟩, rfl, rfl⟩
    · rw [step_stopped (s := s') hne hx]
      exact .inr ⟨_, _, rfl, .inl ⟨rfl, hne'⟩, rfl, rfl⟩

theorem advance_tighter (h : tight.Tighter loose) (n : Nat) {next : Next} {steps : Int64}
    (hc : tight.InStep loose steps next.state.steps) :
    (∃ steps', (next.recount steps).advance tight n = (next.advance loose n).recount steps' ∧
        tight.InStep loose steps' (next.advance loose n).state.steps) ∨
      ∃ k < n, ∃ s, next.advance loose k = .running s ∧
        ((next.recount steps).advance tight n).StoppedIn tight loose s := by
  induction n generalizing next steps with
  | zero => exact .inl ⟨steps, by rw [Next.advance_zero, Next.advance_zero],
      by rwa [Next.advance_zero]⟩
  | succ n ih =>
    cases next with
    | running s =>
      have hc : tight.InStep loose steps s.steps := hc
      have hr : (Next.running s).recount steps = .running { s with steps } := rfl
      rw [hr, Next.advance_succ, Next.advance_succ]
      rcases step_tighter h hc with ⟨steps₁, hs, hc₁⟩ | ⟨failure, t, hs, hstop⟩
      · rw [hs]
        rcases ih hc₁ with hsame | ⟨k, hk, t, hrun, hstop⟩
        · exact .inl hsame
        · exact .inr ⟨k + 1, Nat.succ_lt_succ hk, t, hrun, hstop⟩
      · rw [hs, Next.advance_failed]
        exact .inr ⟨0, Nat.succ_pos n, s, rfl, failure, t, rfl, hstop⟩
    | returned v s =>
      exact .inl ⟨steps, by simp only [Next.recount, Next.advance_returned],
        by rwa [Next.advance_returned]⟩
    | failed failure s =>
      exact .inl ⟨steps, by simp only [Next.recount, Next.advance_failed],
        by rwa [Next.advance_failed]⟩

end PZero.Machine
