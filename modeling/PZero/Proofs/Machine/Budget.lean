import PZero.Proofs.Machine.Faults
import PZero.Proofs.Machine.Limit
import PZero.Proofs.Machine.Moments

namespace PZero.Machine

open IR

section Strings

def Value.next : Value → Value
  | .ptr block offset => .ptr block (offset + 1)
  | v => v

namespace Memory

variable {memory : Memory} {b : Nat} {block : Block}

/-- The bytes of a string, read cell by cell up to the first zero; nothing if more than `fuel` cells
are read. -/
def readCells (memory : Memory) : (fuel : Nat) → (address : Value) → Option (Except Fault Bytes)
  | 0, _ => none
  | fuel + 1, address =>
    match memory.load address with
    | .error fault => some (.error fault)
    | .ok v =>
      if v.number = 0 then some (.ok [])
      else (readCells memory fuel address.next).map (Except.map
        (UInt8.ofNat (v.number % 256).toNat :: ·))

/-- The bytes up to the first zero of the last cells of a block. -/
def stringIn (block : Block) (tail : List Value) : Except Fault Bytes :=
  if (tail.takeWhile (·.number ≠ 0)).length = tail.length then
    .error (.outside block.cells.size block.name)
  else .ok ((tail.takeWhile (·.number ≠ 0)).map fun v ↦ UInt8.ofNat (v.number % 256).toNat)

theorem stringIn_zero {v : Value} (hv : v.number = 0) (block : Block) (tail : List Value) :
    stringIn block (v :: tail) = .ok [] := by
  simp [stringIn, hv]

theorem stringIn_cons {v : Value} (hv : v.number ≠ 0) (block : Block) (tail : List Value) :
    stringIn block (v :: tail) =
      (stringIn block tail).map (UInt8.ofNat (v.number % 256).toNat :: ·) := by
  simp only [stringIn, List.takeWhile_cons, hv, ne_eq, not_false_eq_true, decide_true, if_true,
    List.length_cons, Nat.add_right_cancel_iff]
  split <;> rfl

theorem locate_cell (hb : memory[b]? = some block) {cell : Nat} (hc : cell < block.cells.size) :
    memory.locate (.ptr (some b) cell) = .ok (b, block, cell) := by
  have hin : (0 : Int) ≤ cell ∧ (cell : Int) < block.cells.size := by omega
  simp only [locate, hb, hin, and_self, if_true, Int.toNat_natCast]

theorem readCells_eq_stringIn (hb : memory[b]? = some block) {fuel cell : Nat}
    (hc : cell ≤ block.cells.size) (hf : block.cells.size - cell < fuel) :
    memory.readCells fuel (.ptr (some b) cell) =
      some (stringIn block (block.cells.toList.drop cell)) := by
  -- The loads left are those of the cells from this one on, and one that runs out of the block.
  induction fuel generalizing cell with
  | zero => omega
  | succ fuel ih =>
    by_cases hlt : cell < block.cells.size
    · have hload : memory.load (.ptr (some b) cell) = .ok block.cells[cell] := by
        simp [load, locate_cell hb hlt, hlt, bind, Except.bind, pure, Except.pure]
      have hdrop : block.cells.toList.drop cell =
          block.cells[cell] :: block.cells.toList.drop (cell + 1) := by
        rw [List.drop_eq_getElem_cons (by simpa using hlt), Array.getElem_toList]
      rw [readCells, hload, hdrop]
      dsimp only
      split
      · rename_i hz
        rw [stringIn_zero hz]
      · rename_i hz
        have hnext : (Value.ptr (some b) cell).next = .ptr (some b) (cell + 1 : Nat) := by
          simp [Value.next]
        rw [hnext, ih hlt (by omega), stringIn_cons hz, Option.map_some]
    · have hend : cell = block.cells.size := by omega
      have hload : memory.load (.ptr (some b) cell) =
          .error (.outside block.cells.size block.name) := by
        simp [load, locate, hb, hend, bind, Except.bind]
      have hdrop : block.cells.toList.drop cell = [] := by simp [hend]
      rw [readCells, hload, hdrop]
      rfl

theorem address_of_locate {address : Value} {cell : Nat}
    (h : memory.locate address = .ok (b, block, cell)) : address = .ptr (some b) cell := by
  unfold locate at h
  split at h
  · split at h
    · split at h
      · rename_i hin
        cases h
        rw [Int.toNat_of_nonneg hin.1]
      · cases h
    · cases h
  · cases h

theorem readCells_eq {fuel : Nat} (hf : ∀ block ∈ memory, block.cells.size < fuel) (h0 : 0 < fuel)
    (address : Value) : memory.readCells fuel address = some (memory.readString address) := by
  cases hl : memory.locate address with
  | error fault =>
    obtain ⟨fuel, rfl⟩ := Nat.exists_eq_succ_of_ne_zero (Nat.ne_of_gt h0)
    simp [readCells, load, readString, hl, bind, Except.bind]
  | ok found =>
    obtain ⟨b, block, cell⟩ := found
    obtain ⟨hb, hc⟩ := locate_eq_ok hl
    have hfuel : block.cells.size - cell < fuel :=
      Nat.lt_of_le_of_lt (Nat.sub_le _ _) (hf block (Array.mem_of_getElem? hb))
    obtain rfl := address_of_locate hl
    rw [readCells_eq_stringIn hb (Nat.le_of_lt hc) hfuel]
    simp only [readString, hl, bind, Except.bind, stringIn]
    split <;> rfl

end Memory

end Strings

variable {image : Image} {s : State}

/-- The instruction that a step takes; none if the body or the allowed steps are used up. -/
def State.due (image : Image) (s : State) : Option Instr :=
  match s.frame.ahead with
  | [] => none
  | i :: _ => if image.exceeds (s.counted image).steps then none else some i

/-- A failure that the bound on the steps is not to blame for. -/
def Next.Blameless : Next → Prop
  | .failed failure _ => ∀ limit, failure.fault ≠ .stepLimit limit
  | _ => True

def Next.executed (image : Image) : Nat → Next → List Instr
  | 0, _ => []
  | n + 1, .running s => (s.due image).toList ++ executed image n (step image s)
  | _ + 1, _ => []

namespace State

theorem blameless_fail {fault : Fault} (h : IsOwn fault) : (s.fail fault).Blameless :=
  fun limit ↦ (h limit).1

theorem blameless_failAt {i : Instr} {fault : Fault} (h : IsOwn fault) :
    (s.failAt i fault).Blameless :=
  fun limit ↦ (h limit).1

theorem blameless_leave (s : State) (v : Value) : (s.leave v).Blameless := by
  unfold leave
  split <;> trivial

theorem blameless_call (s : State) (i : Instr) (callee : Bytes) (args : List Value) :
    (s.call image i callee args).Blameless := by
  unfold call
  split
  · split
    · exact blameless_failAt (IsPlain.isOwn rfl)
    · split
      · exact nofun
      · trivial
  · split
    · split
      · trivial
      · rename_i fault hl
        exact blameless_failAt (library_faults _ _ _ fault hl)
    · exact blameless_failAt (IsPlain.isOwn rfl)

theorem blameless_execute (image : Image) (s : State) (i : Instr) :
    (s.execute image i).Blameless := by
  unfold execute
  split
  · trivial
  · split
    · trivial
    · rename_i fault hj
      exact blameless_fail (jump_faults _ fault hj).isOwn
  · split
    · split
      · trivial
      · rename_i fault hj
        exact blameless_fail (jump_faults _ fault hj).isOwn
    · rename_i fault hx
      exact blameless_fail (operand_faults _ fault hx).isOwn
  · split
    · exact blameless_leave s _
    · rename_i fault hx
      exact blameless_fail (operand_faults _ fault hx).isOwn
  · exact blameless_leave s _
  · split
    · exact blameless_call s _ _ _
    · rename_i fault hx
      exact blameless_failAt (operands_faults _ fault hx).isOwn
  · split
    · exact blameless_call s _ _ _
    · rename_i fault hx
      exact blameless_failAt (operands_faults _ fault hx).isOwn
  · split
    · trivial
    · rename_i fault he
      exact blameless_failAt (effect_faults _ _ fault he).isOwn

end State

theorem due_ended (h : s.frame.ahead = []) : s.due image = none := by
  simp only [State.due, h]

theorem due_stopped (hx : image.exceeds (s.counted image).steps = true) : s.due image = none := by
  unfold State.due
  split
  · rfl
  · rw [if_pos hx]

theorem due_taken {i : Instr} {ahead : List Instr} (h : s.frame.ahead = i :: ahead)
    (hx : image.exceeds (s.counted image).steps = false) : s.due image = some i := by
  simp only [State.due, h, hx, Bool.false_eq_true, if_false]

theorem length_executed {n : Nat} {next : Next} {t : State}
    (h : next.advance image n = .running t) : (next.executed image n).length = n := by
  induction n generalizing next with
  | zero => rw [Next.executed, List.length_nil]
  | succ n ih =>
    cases next with
    | running s =>
      rw [Next.advance_succ] at h
      rw [Next.executed, List.length_append, ih h]
      -- A step that takes no instruction fails, and a run that has failed does not go on.
      rcases step_cases image s with ⟨-, hs⟩ | ⟨-, -, hs⟩ | ⟨i, ahead, ha, hx, -⟩
      · rw [hs, State.fail, Next.advance_failed] at h
        cases h
      · rw [hs, State.fail, Next.advance_failed] at h
        cases h
      · rw [due_taken ha hx]
        exact Nat.add_comm 1 n
    | returned v s => simp at h
    | failed failure s => simp at h

theorem toInt_succ {n : Int64} (h : n.toInt + 1 < 2 ^ 63) : (n + 1).toInt = n.toInt + 1 := by
  have hle := n.le_toInt
  rw [Int64.toInt_add, Int64.toInt_one, Int.bmod_eq_of_le (by omega) (by omega)]

theorem exceeds_counted (h0 : 0 < image.maxSteps) :
    image.exceeds (s.counted image).steps = true ↔ image.maxSteps < s.steps + 1 := by
  rw [exceeds_iff, State.counted, Image.count, if_pos h0, and_iff_right h0]

/-- The count of a run is within the bound, or the run was stopped for the one instruction that was
counted beyond it. -/
inductive Next.InBudget (image : Image) : Next → Prop
  | within {next : Next} (hle : next.state.steps ≤ image.maxSteps) (hb : next.Blameless) :
    InBudget image next
  | spent {failure : Failure} {s : State} {limit : Int} (hf : failure.fault = .stepLimit limit)
    (hs : s.steps = image.maxSteps + 1) : InBudget image (.failed failure s)

/-- The instructions that are paid for. -/
def Image.paid (image : Image) (steps : Int64) : Int := min steps.toInt image.maxSteps.toInt

section Budget

/- The bound leaves room for one more count, so that its word does not wrap. -/
variable (h0 : 0 < image.maxSteps) (hroom : image.maxSteps.toInt + 1 < 2 ^ 63)

include h0 hroom

theorem step_inBudget (h : s.steps ≤ image.maxSteps) : (step image s).InBudget image ∧
    image.paid (step image s).state.steps =
      image.paid s.steps + (s.due image).toList.length := by
  have hle : s.steps.toInt ≤ image.maxSteps.toInt := Int64.le_iff_toInt_le.1 h
  have hnext : (s.steps + 1).toInt = s.steps.toInt + 1 := toInt_succ (by omega)
  have hcount : (s.counted image).steps = s.steps + 1 := by
    rw [State.counted, Image.count, if_pos h0]
  rcases step_cases image s with ⟨ha, hs⟩ | ⟨-, hx, hs⟩ | ⟨i, ahead, ha, hx, hs⟩
  · rw [hs, due_ended ha]
    exact ⟨.within h fun _ he ↦ Fault.noConfusion he, (Int.add_zero _).symm⟩
  · have hlt := Int64.lt_iff_toInt_lt.1 ((exceeds_counted h0).1 hx)
    have hspent : s.steps = image.maxSteps := Int64.toInt_inj.1 (by omega)
    rw [hs, due_stopped hx]
    refine ⟨.spent rfl (by rw [← hspent]; exact hcount), ?_⟩
    change image.paid (s.counted image).steps = _
    simp only [Image.paid, hcount, Option.toList, List.length_nil]
    omega
  · have hnot := (exceeds_counted h0).not.1 (Bool.eq_false_iff.1 hx)
    have hin : (s.steps + 1).toInt ≤ image.maxSteps.toInt :=
      Int64.le_iff_toInt_le.1 (Int64.not_lt.1 hnot)
    have hsteps : (step image s).state.steps = s.steps + 1 := by
      rw [hs, execute_steps]
      exact hcount
    refine ⟨.within (hsteps ▸ Int64.not_lt.1 hnot) (hs ▸ State.blameless_execute _ _ i), ?_⟩
    rw [hsteps, due_taken ha hx]
    simp only [Image.paid, Option.toList, List.length_singleton]
    omega

theorem advance_inBudget (n : Nat) {next : Next} (h : next.InBudget image) :
    (next.advance image n).InBudget image ∧
      image.paid (next.advance image n).state.steps =
        image.paid next.state.steps + (next.executed image n).length := by
  induction n generalizing next with
  | zero =>
    rw [Next.advance_zero]
    exact ⟨h, (Int.add_zero _).symm⟩
  | succ n ih =>
    cases next with
    | running s =>
      cases h with
      | within hle _ =>
        have hle : s.steps ≤ image.maxSteps := hle
        obtain ⟨hs, hpaid⟩ := step_inBudget h0 hroom hle
        obtain ⟨hn, hpaid'⟩ := ih hs
        refine ⟨hn, ?_⟩
        rw [Next.advance_succ, hpaid', hpaid, Next.executed, List.length_append]
        change _ = image.paid s.steps + _
        omega
    | returned v s =>
      rw [Next.advance_returned]
      exact ⟨h, (Int.add_zero _).symm⟩
    | failed failure s =>
      rw [Next.advance_failed]
      exact ⟨h, (Int.add_zero _).symm⟩

theorem advance_ends {n : Nat} (hn : image.maxSteps.toInt < n) (hs : 0 ≤ s.steps)
    (h : s.steps ≤ image.maxSteps) (t : State) : (Next.running s).advance image n ≠ .running t := by
  intro he
  have hstart : (Next.running s).InBudget image := .within h trivial
  have hpaid := (advance_inBudget h0 hroom n hstart).2
  have hs : 0 ≤ s.steps.toInt := Int64.le_iff_toInt_le.1 hs
  have hle := Int64.le_iff_toInt_le.1 h
  rw [length_executed he] at hpaid
  change image.paid _ = image.paid s.steps + n at hpaid
  simp only [Image.paid] at hpaid
  omega

end Budget

def Session.executed (fuel : Nat) (session : Session) : List Instr :=
  match session.image.function? (ascii "main") with
  | none => []
  | some F =>
    if F.params = [] ∧ session.depth < session.image.maxDepth then
      (Next.running (session.entry F)).executed session.image fuel
    else []

/-- Calls of `main` one after another, each with the instructions that it executes; nothing if one
of them takes more than `fuel` steps. -/
def Session.watched (fuel : Nat) : (n : Nat) → Session → Option (List (Ended × List Instr))
  | 0, _ => some []
  | n + 1, session => do
    let ended ← session.main fuel
    let rest ← ended.session.watched fuel n
    return (ended, session.executed fuel) :: rest

/-- A call that the bound on the steps has stopped. -/
def Ended.OutOfSteps (ended : Ended) : Prop :=
  ∃ failure limit, ended.status = .error failure ∧ failure.fault = .stepLimit limit

/-- A call that stops at a bound before its first instruction: it executes and prints nothing, and
the memory stays. -/
structure StopsAt (limit : Int) (memory : Memory) (call : Ended × List Instr) : Prop where
  status : call.1.status = .error ⟨[.function (ascii "main")], .stepLimit limit⟩
  output : call.1.output = []
  memory : call.1.session.memory = memory
  executed : call.2 = []

/-- With more fuel than the bound says, calls of `main` end. Together they execute no more
instructions than that, and each one after a call that ran out of steps stops at once. -/
def Session.StaysInBudget (session : Session) (n : Nat) : Prop :=
  ∀ fuel : Nat, session.image.maxSteps.toInt < fuel → ∃ calls,
    session.watched fuel n = some calls ∧
      (calls.flatMap Prod.snd).length ≤ session.image.maxSteps.toInt ∧
      ∀ before cut after, calls = before ++ cut :: after → cut.1.OutOfSteps →
        ∀ later ∈ after, StopsAt session.image.maxSteps.toInt cut.1.session.memory later

namespace Session

variable {session : Session} {F : Function} {fuel : Nat}

theorem watched_succ {n : Nat} {calls : List (Ended × List Instr)} :
    session.watched fuel (n + 1) = some calls ↔ ∃ ended rest, session.main fuel = some ended ∧
      ended.session.watched fuel n = some rest ∧
      calls = (ended, session.executed fuel) :: rest := by
  simp only [Session.watched, Option.bind_eq_bind, Option.bind_eq_some_iff, Option.pure_def,
    Option.some.injEq]
  constructor
  · rintro ⟨ended, he, rest, hr, rfl⟩
    exact ⟨ended, rest, he, hr, rfl⟩
  · rintro ⟨ended, rest, he, hr, rfl⟩
    exact ⟨ended, he, rest, hr, rfl⟩

/-- A call of `main` starts to run. -/
structure Starts (session : Session) (F : Function) : Prop where
  main : session.image.function? (ascii "main") = some F
  params : F.params = []
  depth : session.depth < session.image.maxDepth

/-- A call of `main` is refused, without being run, for another cause than the bound on the steps.
-/
structure Refuses (session : Session) (fault : Fault) : Prop where
  main : ∀ fuel, session.main fuel = some ⟨.error ⟨[], fault⟩, [], session⟩
  executed : ∀ fuel, session.executed fuel = []
  fault : ∀ limit, fault ≠ .stepLimit limit

theorem starts_or_refuses (session : Session) :
    (∃ F, session.Starts F) ∨ ∃ fault, session.Refuses fault := by
  cases hF : session.image.function? (ascii "main") with
  | none => exact .inr ⟨_, main_eq_noMain hF, fun _ ↦ by simp only [executed, hF], nofun⟩
  | some F =>
    by_cases hps : F.params = []
    · by_cases hd : session.depth < session.image.maxDepth
      · exact .inl ⟨F, hF, hps, hd⟩
      · exact .inr ⟨_, main_eq_depthLimit hF hps hd, fun _ ↦ by simp [executed, hF, hd], nofun⟩
    · exact .inr ⟨_, main_eq_takesParameters hF hps, fun _ ↦ by simp [executed, hF, hps], nofun⟩

theorem Starts.main_eq (h : session.Starts F) (fuel : Nat) :
    session.main fuel = run session.image fuel (session.entry F) :=
  main_eq_run h.main h.params h.depth fuel

theorem Starts.executed_eq (h : session.Starts F) (fuel : Nat) :
    session.executed fuel = (Next.running (session.entry F)).executed session.image fuel := by
  simp only [executed, h.main, h.params, h.depth, and_self, if_true]

/-- A session whose `main` would run if a step were left. -/
structure Exhausted (session : Session) (F : Function) : Prop extends session.Starts F where
  body : F.body ≠ []
  bounded : 0 < session.image.maxSteps
  spent : session.image.maxSteps < session.steps

/-- How a call ends when the steps are used up. It is counted all the same. -/
def stopped (session : Session) (F : Function) : Ended :=
  ⟨.error ⟨[.function F.name], .stepLimit session.image.maxSteps.toInt⟩, [],
    (((session.entry F).counted session.image).unwind).session session.image⟩

theorem Exhausted.exceeds (h : session.Exhausted F) (hroom : session.steps.toInt + 1 < 2 ^ 63) :
    session.image.exceeds ((session.entry F).counted session.image).steps = true := by
  refine (exceeds_counted (s := session.entry F) h.bounded).2 (Int64.lt_iff_toInt_lt.2 ?_)
  have hspent := Int64.lt_iff_toInt_lt.1 h.spent
  have hnext : ((session.entry F).steps + 1).toInt = session.steps.toInt + 1 := toInt_succ hroom
  omega

theorem Exhausted.main_eq (h : session.Exhausted F) (hroom : session.steps.toInt + 1 < 2 ^ 63)
    (fuel : Nat) : session.main (fuel + 1) = some (session.stopped F) ∧
      session.executed (fuel + 1) = [] := by
  have hx := h.exceeds hroom
  have hs := step_stopped (s := session.entry F) h.body hx
  constructor
  · rw [h.toStarts.main_eq, run, hs]
    rfl
  · rw [h.executed_eq, Next.executed, due_stopped hx, hs, State.fail]
    cases fuel <;> rfl

theorem Exhausted.steps_stopped (h : session.Exhausted F) :
    (session.stopped F).session.steps = session.steps + 1 := by
  change session.image.count session.steps = _
  rw [Image.count, if_pos h.bounded]

theorem Exhausted.again (h : session.Exhausted F) (hroom : session.steps.toInt + 1 < 2 ^ 63) :
    (session.stopped F).session.Exhausted F where
  main := h.main
  params := h.params
  depth := by
    rw [main_depth (h.main_eq hroom 0).1]
    exact h.depth
  body := h.body
  bounded := h.bounded
  spent := by
    have hspent := Int64.lt_iff_toInt_lt.1 h.spent
    rw [h.steps_stopped, Int64.lt_iff_toInt_lt, toInt_succ hroom]
    exact Int.lt_trans hspent (Int.lt_succ _)

theorem Exhausted.watched (h : session.Exhausted F) (hf : 0 < fuel) (n : Nat)
    (hroom : session.steps.toInt + n < 2 ^ 63) : ∃ calls, session.watched fuel n = some calls ∧
      ∀ call ∈ calls, StopsAt session.image.maxSteps.toInt session.memory call := by
  induction n generalizing session with
  | zero => exact ⟨[], rfl, List.forall_mem_nil _⟩
  | succ n ih =>
    obtain ⟨fuel, rfl⟩ := Nat.exists_eq_succ_of_ne_zero (Nat.ne_of_gt hf)
    have hnext : session.steps.toInt + 1 < 2 ^ 63 := by omega
    obtain ⟨hm, he⟩ := h.main_eq hnext fuel
    have hsteps : (session.stopped F).session.steps.toInt = session.steps.toInt + 1 := by
      rw [h.steps_stopped, toInt_succ hnext]
    obtain ⟨rest, hrest, hall⟩ := ih (h.again hnext) (by omega)
    have hname : F.name = ascii "main" := by simpa using List.find?_some h.toStarts.main
    refine ⟨_, watched_succ.2 ⟨_, rest, hm, hrest, rfl⟩, List.forall_mem_cons.2 ⟨?_, hall⟩⟩
    exact ⟨by rw [← hname]; rfl, rfl, rfl, he⟩

/-- A call that has paid for what it executes: it ran out of steps, or the count is still within
the bound. -/
structure Pays (session : Session) (fuel : Nat) (ended : Ended) : Prop where
  main : session.main fuel = some ended
  paid : session.image.paid ended.session.steps =
    session.image.paid session.steps + (session.executed fuel).length
  left : ended.OutOfSteps ∧ (∃ F, ended.session.Exhausted F) ∧
      ended.session.steps = session.image.maxSteps + 1 ∨
    ¬ended.OutOfSteps ∧ ended.session.steps ≤ session.image.maxSteps

theorem Starts.body_ne (h : session.Starts F) {ended : Ended}
    (he : session.main fuel = some ended) (hs : ended.OutOfSteps) : F.body ≠ [] := by
  intro hb
  rw [h.main_eq] at he
  cases fuel with
  | zero => cases he
  | succ fuel =>
    rw [run, step_ended (s := session.entry F) hb] at he
    cases he
    obtain ⟨failure, limit, hs, hf⟩ := hs
    cases hs
    cases hf

theorem Refuses.pays {fault : Fault} (h : session.Refuses fault)
    (hle : session.steps ≤ session.image.maxSteps) (fuel : Nat) :
    session.Pays fuel ⟨.error ⟨[], fault⟩, [], session⟩ where
  main := h.main fuel
  paid := by rw [h.executed, List.length_nil, Int.natCast_zero, Int.add_zero]
  left := by
    refine .inr ⟨?_, hle⟩
    rintro ⟨failure, limit, hs, hf⟩
    cases hs
    exact h.fault limit hf

theorem Starts.pays (h : session.Starts F) (h0 : 0 < session.image.maxSteps)
    (hroom : session.image.maxSteps.toInt + 1 < 2 ^ 63) (hs : 0 ≤ session.steps)
    (hle : session.steps ≤ session.image.maxSteps) (hf : session.image.maxSteps.toInt < fuel) :
    ∃ ended, session.Pays fuel ended := by
  have hstart : (Next.running (session.entry F)).InBudget session.image := .within hle trivial
  obtain ⟨hbudget, hpaid⟩ := advance_inBudget h0 hroom fuel hstart
  have hends := advance_ends (s := session.entry F) h0 hroom hf hs hle
  rw [← h.executed_eq] at hpaid
  have hmain : session.main fuel = _ := (h.main_eq fuel).trans (run_eq _ _ _)
  -- With this much fuel the run does not go on: it has returned or failed.
  cases hn : (Next.running (session.entry F)).advance session.image fuel with
  | running t => exact absurd hn (hends t)
  | returned v t =>
    rw [hn] at hmain hbudget hpaid
    refine ⟨_, hmain, hpaid, .inr ⟨?_, ?_⟩⟩
    · rintro ⟨failure, limit, hs, -⟩
      cases hs
    · cases hbudget with
      | within hle _ => exact hle
  | failed failure t =>
    rw [hn] at hmain hbudget hpaid
    refine ⟨_, hmain, hpaid, ?_⟩
    cases hbudget with
    | within hle hb =>
      refine .inr ⟨?_, hle⟩
      rintro ⟨failure', limit, hs, hlimit⟩
      cases hs
      exact hb limit hlimit
    | @spent _ _ limit hlimit hsteps =>
      have hout : Ended.OutOfSteps ⟨.error failure, t.output.toList, t.session session.image⟩ :=
        ⟨failure, limit, rfl, hlimit⟩
      have hdepth : t.depth = session.depth := main_depth hmain
      have hbeyond : session.image.maxSteps < t.steps := by
        rw [hsteps, Int64.lt_iff_toInt_lt, toInt_succ hroom]
        exact Int.lt_succ _
      refine .inl ⟨hout, ⟨F, ⟨h.main, h.params, ?_⟩, h.body_ne hmain hout, h0, hbeyond⟩, hsteps⟩
      change t.depth < session.image.maxDepth
      rw [hdepth]
      exact h.depth

theorem exists_pays (h0 : 0 < session.image.maxSteps)
    (hroom : session.image.maxSteps.toInt + 1 < 2 ^ 63) (hs : 0 ≤ session.steps)
    (hle : session.steps ≤ session.image.maxSteps) (hf : session.image.maxSteps.toInt < fuel) :
    ∃ ended, session.Pays fuel ended := by
  rcases session.starts_or_refuses with ⟨F, hF⟩ | ⟨fault, hr⟩
  · exact hF.pays h0 hroom hs hle hf
  · exact ⟨_, hr.pays hle fuel⟩

theorem exists_watched (h0 : 0 < session.image.maxSteps) {n : Nat}
    (hroom : session.image.maxSteps.toInt + n < 2 ^ 63) (hs : 0 ≤ session.steps)
    (hle : session.steps ≤ session.image.maxSteps) (hf : session.image.maxSteps.toInt < fuel) :
    ∃ calls, session.watched fuel n = some calls ∧
      session.steps.toInt + (calls.flatMap Prod.snd).length ≤ session.image.maxSteps.toInt ∧
      ∀ before cut after, calls = before ++ cut :: after → cut.1.OutOfSteps →
        ∀ later ∈ after, StopsAt session.image.maxSteps.toInt cut.1.session.memory later := by
  induction n generalizing session with
  | zero =>
    refine ⟨[], rfl, ?_, fun before cut after he ↦ by simp at he⟩
    simpa using Int64.le_iff_toInt_le.1 hle
  | succ n ih =>
    obtain ⟨ended, hm, hpaid, hleft⟩ := exists_pays h0 (by omega) hs hle hf
    have himage := main_image hm
    have hle' := Int64.le_iff_toInt_le.1 hle
    have h0' : 0 < session.image.maxSteps.toInt := Int64.lt_iff_toInt_lt.1 h0
    simp only [Image.paid] at hpaid
    rcases hleft with ⟨-, ⟨F, hex⟩, hsteps⟩ | ⟨hout, hended⟩
    · have hsteps' : ended.session.steps.toInt = session.image.maxSteps.toInt + 1 := by
        rw [hsteps, toInt_succ (by omega)]
      obtain ⟨rest, hrest, hall⟩ := hex.watched (show 0 < fuel by omega) n (by omega)
      rw [himage] at hall
      have hnone : rest.flatMap Prod.snd = [] :=
        List.flatMap_eq_nil_iff.2 fun call hc ↦ (hall call hc).executed
      refine ⟨_, watched_succ.2 ⟨ended, rest, hm, hrest, rfl⟩, ?_, fun before cut after he _ ↦ ?_⟩
      · simp only [List.flatMap_cons, hnone, List.append_nil]
        omega
      · cases before with
        | nil =>
          obtain ⟨rfl, rfl⟩ := List.cons.inj he
          exact hall
        | cons first before =>
          obtain ⟨-, rfl⟩ := List.cons.inj he
          obtain ⟨-, hcut⟩ := List.forall_mem_append.1 hall
          obtain ⟨hcut, hafter⟩ := List.forall_mem_cons.1 hcut
          rwa [hcut.memory]
    · have hended' := Int64.le_iff_toInt_le.1 hended
      have hs' : 0 ≤ session.steps.toInt := Int64.le_iff_toInt_le.1 hs
      have hsteps : 0 ≤ ended.session.steps := by
        rw [Int64.le_iff_toInt_le, Int64.toInt_zero]
        omega
      rw [← himage] at h0 hroom hf
      obtain ⟨rest, hrest, htotal, hlater⟩ := ih h0 (by omega) hsteps (himage ▸ hended) hf
      rw [himage] at htotal hlater
      refine ⟨_, watched_succ.2 ⟨ended, rest, hm, hrest, rfl⟩, ?_,
        fun before cut after he hcut ↦ ?_⟩
      · simp only [List.flatMap_cons, List.length_append]
        omega
      · cases before with
        | nil =>
          obtain ⟨rfl, rfl⟩ := List.cons.inj he
          exact absurd hcut hout
        | cons first before => exact hlater before cut after (List.cons.inj he).2 hcut

end Session

def circle : Module where
  id := ascii "circle"
  externals := []
  globals := []
  functions := [⟨ascii "main", [], .int 32, [.label (ascii "again"), .br (ascii "again")]⟩]

section Circle

/-- The loop is running. -/
structure State.Circles (s : State) : Prop where
  body : s.frame.function.body = [.label (ascii "again"), .br (ascii "again")]
  ahead : s.frame.ahead = s.frame.function.body ∨ s.frame.ahead = [.br (ascii "again")]

theorem State.Circles.step (h : s.Circles)
    (hx : image.exceeds (s.counted image).steps = false) :
    (∃ t, Machine.step image s = .running t ∧ t.Circles) ∧ s.due image ≠ none := by
  rcases h.ahead with ha | ha
  · rw [h.body] at ha
    rw [step_taken ha hx, due_taken ha hx]
    exact ⟨⟨_, rfl, h.body, .inr rfl⟩, Option.some_ne_none _⟩
  · have hj : Frame.after? (ascii "again") s.frame.function.body = some [.br (ascii "again")] := by
      rw [h.body]
      rfl
    rw [step_taken ha hx, due_taken ha hx]
    refine ⟨⟨{ s.counted image with
      frame := { s.frame with
        ahead := [.br (ascii "again")]
        previous := s.frame.current
        current := ascii "again" } }, ?_, h.body, .inr rfl⟩, Option.some_ne_none _⟩
    simp only [State.execute, Frame.jump, hj]

theorem State.Circles.advance (h : s.Circles) (n : Nat) :
    (∃ t, (Next.running s).advance image n = .running t ∧ t.Circles) ∨
      ∃ failure t limit, (Next.running s).advance image n = .failed failure t ∧
        failure.fault = .stepLimit limit ∧ ∃ steps, image.exceeds steps = true := by
  induction n generalizing s with
  | zero => exact .inl ⟨s, rfl, h⟩
  | succ n ih =>
    rw [Next.advance_succ]
    cases hx : image.exceeds (s.counted image).steps with
    | true =>
      have hne : s.frame.ahead ≠ [] := by rcases h.ahead with ha | ha <;> simp [ha, h.body]
      rw [step_stopped hne hx, State.fail, Next.advance_failed]
      exact .inr ⟨_, _, _, rfl, rfl, _, hx⟩
    | false =>
      obtain ⟨⟨t, ht, hc⟩, -⟩ := h.step hx
      rw [ht]
      exact ih hc

/-- The loop at the start of a call, with some steps counted before. -/
structure Session.Circles (session : Session) (F : Function) : Prop extends session.Starts F where
  body : F.body = [.label (ascii "again"), .br (ascii "again")]

theorem circle_circles (maxSteps : Int64) :
    Session.Circles ⟨.ofModule circle ⟨maxSteps, 0⟩, #[], 0, 0⟩
      ⟨ascii "main", [], .int 32, [.label (ascii "again"), .br (ascii "again")]⟩ where
  main := rfl
  params := rfl
  depth := show (0 : Int) < usualDepth by decide
  body := rfl

variable {session : Session} {F : Function} {fuel : Nat}

theorem Session.Circles.entry (h : session.Circles F) : (session.entry F).Circles :=
  ⟨h.body, .inl rfl⟩

theorem Session.Circles.outOfSteps (h : session.Circles F) {ended : Ended}
    (he : session.main fuel = some ended) :
    ended.OutOfSteps ∧ ∃ steps, session.image.exceeds steps = true := by
  rw [h.main_eq, run_eq] at he
  rcases @State.Circles.advance session.image _ h.entry fuel with
    ⟨t, ht, -⟩ | ⟨failure, t, limit, ht, hf, hx⟩
  · rw [ht] at he
    cases he
  · rw [ht] at he
    cases he
    exact ⟨⟨failure, limit, rfl, hf⟩, hx⟩

theorem exceeds_greatest (h : 2 ^ 63 ≤ image.maxSteps.toInt + 1) (steps : Int64) :
    image.exceeds steps = false := by
  rw [Bool.eq_false_iff, ne_eq, exceeds_iff]
  rintro ⟨-, hlt⟩
  have hlt := Int64.lt_iff_toInt_lt.1 hlt
  have := steps.toInt_lt
  omega

theorem Session.Circles.main_eq_none (h : session.Circles F)
    (hmax : 2 ^ 63 ≤ session.image.maxSteps.toInt + 1) (fuel : Nat) : session.main fuel = none := by
  cases hm : session.main fuel with
  | none => rfl
  | some ended =>
    obtain ⟨-, steps, hx⟩ := h.outOfSteps hm
    rw [exceeds_greatest hmax] at hx
    cases hx

theorem Session.Circles.executed_ne_nil (h : session.Circles F)
    (h0 : 0 < session.image.maxSteps) (hwrap : 2 ^ 63 ≤ session.steps.toInt + 1) (hf : 0 < fuel) :
    session.executed fuel ≠ [] := by
  obtain ⟨fuel, rfl⟩ := Nat.exists_eq_succ_of_ne_zero (Nat.ne_of_gt hf)
  have hlow : (session.steps + 1).toInt = -2 ^ 63 := by
    have := session.steps.toInt_lt
    have hs : session.steps.toInt + 1 = 2 ^ 63 := by omega
    rw [Int64.toInt_add, Int64.toInt_one, hs]
    rfl
  have hx : session.image.exceeds ((session.entry F).counted session.image).steps = false := by
    rw [Bool.eq_false_iff, ne_eq, exceeds_counted h0]
    intro hlt
    have hlt := Int64.lt_iff_toInt_lt.1 hlt
    have h0 : 0 < session.image.maxSteps.toInt := Int64.lt_iff_toInt_lt.1 h0
    change _ < (session.steps + 1).toInt at hlt
    omega
  rw [h.executed_eq, Next.executed]
  obtain ⟨i, hi⟩ := Option.ne_none_iff_exists'.1 (h.entry.step hx).2
  simp [hi]

theorem Session.Circles.exists_executed (h : session.Circles F) (hex : session.Exhausted F)
    (hf : 0 < fuel) {n : Nat} (hwrap : 2 ^ 63 ≤ session.steps.toInt + n)
    {calls : List (Ended × List Instr)} (hc : session.watched fuel n = some calls) :
    ∃ call ∈ calls, call.2 ≠ [] := by
  induction n generalizing session calls with
  | zero =>
    have := session.steps.toInt_lt
    omega
  | succ n ih =>
    obtain ⟨ended, rest, hm, hr, rfl⟩ := watched_succ.1 hc
    by_cases hlast : 2 ^ 63 ≤ session.steps.toInt + 1
    · exact ⟨_, List.mem_cons_self, h.executed_ne_nil hex.bounded hlast hf⟩
    · have hroom : session.steps.toInt + 1 < 2 ^ 63 := by omega
      obtain ⟨fuel, rfl⟩ := Nat.exists_eq_succ_of_ne_zero (Nat.ne_of_gt hf)
      obtain rfl := Option.some.inj (hm.symm.trans (hex.main_eq hroom fuel).1)
      have hagain := hex.again hroom
      have hsteps : (session.stopped F).session.steps.toInt = session.steps.toInt + 1 := by
        rw [hex.steps_stopped, toInt_succ hroom]
      obtain ⟨call, hmem, hne⟩ := ih ⟨hagain.toStarts, h.body⟩ hagain (by omega) hr
      exact ⟨call, List.mem_cons_of_mem _ hmem, hne⟩

theorem Session.Circles.not_staysInBudget (h : session.Circles F)
    (h0 : 0 < session.image.maxSteps) (hs : session.steps = 0) {n : Nat}
    (hwrap : 2 ^ 63 ≤ session.image.maxSteps.toInt + n) : ¬session.StaysInBudget n := by
  intro hstays
  obtain ⟨fuel, hf⟩ : ∃ fuel : Nat, session.image.maxSteps.toInt < fuel :=
    ⟨session.image.maxSteps.toInt.toNat + 1, by omega⟩
  obtain ⟨calls, hc, -, hlater⟩ := hstays fuel hf
  have h0' : 0 < session.image.maxSteps.toInt := Int64.lt_iff_toInt_lt.1 h0
  have hlt := session.image.maxSteps.toInt_lt
  cases n with
  | zero => omega
  | succ n =>
    obtain ⟨ended, rest, hm, hr, rfl⟩ := watched_succ.1 hc
    obtain ⟨hout, -⟩ := h.outOfSteps hm
    by_cases hroom : session.image.maxSteps.toInt + 1 < 2 ^ 63
    · obtain ⟨ended', hm', -, hleft⟩ := exists_pays h0 hroom (by rw [hs]; decide)
        (by rw [hs]; exact Int64.le_of_lt h0) hf
      obtain rfl := Option.some.inj (hm.symm.trans hm')
      rcases hleft with ⟨-, ⟨G, hex⟩, hsteps⟩ | ⟨hnot, -⟩
      · have himage := main_image hm
        have hG : G = F := by
          have hmain := hex.toStarts.main
          rw [himage] at hmain
          exact Option.some.inj (hmain.symm.trans h.toStarts.main)
        subst hG
        have hspent : ended.session.steps.toInt = session.image.maxSteps.toInt + 1 := by
          rw [hsteps, toInt_succ hroom]
        obtain ⟨call, hmem, hne⟩ :=
          Session.Circles.exists_executed ⟨hex.toStarts, h.body⟩ hex (by omega) (by omega) hr
        exact hne (hlater [] _ rest rfl hout call hmem).executed
      · exact hnot hout
    · rw [h.main_eq_none (by omega)] at hm
      cases hm

end Circle

/-- A bound on the steps stops a session, as long as the word that counts them has room for the
bound and one more count for each call. Whatever the module does, that many calls of `main` end,
within as many steps as the bound says; together they execute no more instructions than that; and
after a call that ran out of steps every later one stops at once, without executing an instruction,
printing a byte or changing the memory. Without the room this is not so. -/
theorem calls_stay_in_budget_iff {maxSteps : Int64} (h0 : 0 < maxSteps) (n : Nat) :
    (∀ m maxDepth loaded, Session.load m ⟨maxSteps, maxDepth⟩ = .ok loaded →
        loaded.StaysInBudget n) ↔
      maxSteps.toInt + n < 2 ^ 63 := by
  constructor
  · intro h
    by_contra hwrap
    exact (circle_circles maxSteps).not_staysInBudget h0 rfl (Int.not_lt.1 hwrap) (h circle 0 _ rfl)
  · intro hroom m maxDepth loaded hload fuel hf
    obtain ⟨blocks, memory, -, -, rfl⟩ := load_eq_ok hload
    let loaded : Session := ⟨.ofModule m ⟨maxSteps, maxDepth⟩, memory, 0, 0⟩
    have hle : loaded.steps ≤ loaded.image.maxSteps := Int64.le_of_lt h0
    have h0 : 0 < loaded.image.maxSteps := h0
    obtain ⟨calls, hcalls, htotal, hlater⟩ :=
      Session.exists_watched h0 hroom (Int64.le_refl 0) hle hf
    have htotal : 0 + ((calls.flatMap Prod.snd).length : Int) ≤ maxSteps.toInt := htotal
    rw [Int.zero_add] at htotal
    exact ⟨calls, hcalls, htotal, hlater⟩

/-- A module whose `main` prints a line through another function and calls itself. -/
def chatter : Module where
  id := ascii "chatter"
  externals := Library.externals
  globals := []
  functions :=
    [⟨ascii "tell", [], .void, [.callVoid Library.printLn [], .retVoid]⟩,
      ⟨ascii "main", [], .int 32, [.callVoid (ascii "tell") [], .callVoid (ascii "main") [],
        .ret (.const (.int32 0))]⟩]

theorem chatter_is_stopped : ∃ loaded first second third,
    Session.load chatter ⟨8, 0⟩ = .ok loaded ∧
      loaded.watched 9 3 = some [first, second, third] ∧
      first.1.OutOfSteps ∧ first.1.output = ascii "\n\n" ∧ first.2.length ≤ 8 ∧
      StopsAt 8 first.1.session.memory second ∧ StopsAt 8 first.1.session.memory third := by
  let loaded : Session := ⟨.ofModule chatter ⟨8, 0⟩, #[], 0, 0⟩
  have hload : Session.load chatter ⟨8, 0⟩ = .ok loaded := rfl
  have hseen : (loaded.watched 9 3).map (List.map fun c ↦ (c.1.output, match c.1.status with
      | .error ⟨_, .stepLimit _⟩ => true
      | _ => false)) = some [(ascii "\n\n", true), ([], true), ([], true)] := by decide +kernel
  obtain ⟨calls, hcalls, htotal, hlater⟩ :=
    (calls_stay_in_budget_iff (show (0 : Int64) < 8 by decide) 3).2 (by decide) chatter 0 loaded
      hload 9 (by decide)
  rw [hcalls, Option.map_some] at hseen
  obtain ⟨first, tail, rfl, hfirst, htail⟩ := List.map_eq_cons_iff.1 (Option.some.inj hseen)
  obtain ⟨second, tail, rfl, -, htail⟩ := List.map_eq_cons_iff.1 htail
  obtain ⟨third, tail, rfl, -, htail⟩ := List.map_eq_cons_iff.1 htail
  obtain rfl := List.map_eq_nil_iff.1 htail
  obtain ⟨houtput, hstatus⟩ := Prod.mk.inj hfirst
  have hout : first.1.OutOfSteps := by
    split at hstatus
    · rename_i hs
      exact ⟨_, _, hs, rfl⟩
    · cases hstatus
  have hstop := hlater [] first [second, third] rfl hout
  have htotal : ((first.2 ++ (second.2 ++ (third.2 ++ []))).length : Int) ≤ 8 := htotal
  have hlength : first.2.length ≤ 8 := by
    rw [List.length_append] at htotal
    omega
  exact ⟨loaded, first, second, third, hload, hcalls, hout, houtput, hlength,
    hstop second (by simp), hstop third (by simp)⟩

/-- With the greatest bound the loop goes on for ever. -/
theorem greatest_bound_stops_nothing : ∃ loaded,
    Session.load circle ⟨9223372036854775807, 0⟩ = .ok loaded ∧ 0 < loaded.image.maxSteps ∧
      ∀ fuel, loaded.main fuel = none := by
  exact ⟨_, rfl, by decide, (circle_circles 9223372036854775807).main_eq_none (by decide)⟩

end PZero.Machine
