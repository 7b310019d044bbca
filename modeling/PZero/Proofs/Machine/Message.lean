import PZero.Proofs.Machine.Faults

namespace PZero.Machine

open IR Bytes

/-- The callers of a function, the innermost first: the outermost one is `main`, and each waits for
a call of the next. -/
def Chain : List (Frame × Instr) → Bytes → Prop
  | [], name => name = ascii "main"
  | (frame, call) :: rest, name => call.callee? = some name ∧ Chain rest frame.function.name

def State.Chained (s : State) : Prop := Chain s.callers s.frame.function.name

/-- A failure in a state: the way to it, and the limits that it may name. -/
structure Blames (image : Image) (s : State) (failure : Failure) : Prop where
  way : failure.trace = s.trace ∨ ∃ i, failure.trace = s.trace ++ [.instr i] ∧
    (failure.fault.isTrap = true → mayTrap i = true)
  stepLimit : ∀ limit, failure.fault = .stepLimit limit → limit = image.maxSteps.toInt
  depthLimit : ∀ limit, failure.fault = .depthLimit limit → limit = image.maxDepth

def Next.Sound (image : Image) : Next → Prop
  | .running s => s.Chained
  | .returned _ _ => True
  | .failed failure s => s.Chained ∧ Blames image s failure

variable {image : Image} {s : State}

theorem mayTrap_of_callee {i : Instr} {callee : Bytes} (h : i.callee? = some callee) :
    mayTrap i = true := by
  cases i with
  | call | callVoid => rfl
  | _ => cases h

namespace State.Chained

theorem fail (h : s.Chained) {fault : Fault} (hf : IsPlain fault) :
    (s.fail fault).Sound image :=
  ⟨h, .inl rfl, fun limit he ↦ absurd he (hf.isOwn limit).1,
    fun limit he ↦ absurd he (hf.isOwn limit).2⟩

theorem failAt (h : s.Chained) {i : Instr} {fault : Fault} (hf : CausedBy i fault) :
    (s.failAt i fault).Sound image :=
  ⟨h, .inr ⟨i, rfl, hf.mayTrap⟩, fun limit he ↦ absurd he (hf.isOwn limit).1,
    fun limit he ↦ absurd he (hf.isOwn limit).2⟩

theorem leave (h : s.Chained) (v : Value) : (s.leave v).Sound image := by
  unfold State.leave
  split
  · trivial
  · rename_i frame call rest hs
    rw [Chained, hs] at h
    change Chain rest (frame.finish call v).function.name
    rw [Frame.finish_function]
    exact h.2

theorem call (h : s.Chained) {i : Instr} {callee : Bytes} (hi : i.callee? = some callee)
    (args : List Value) : (s.call image i callee args).Sound image := by
  have htrap := mayTrap_of_callee hi
  unfold State.call
  split
  · rename_i F hF
    have hn : F.name = callee := by simpa using List.find?_some hF
    split
    · exact h.failAt ((show IsPlain (.argumentCount ..) from rfl).causedBy i)
    · split
      · exact ⟨h, .inr ⟨i, rfl, fun _ ↦ htrap⟩, nofun, fun _ he ↦ by cases he; rfl⟩
      · exact ⟨hi.trans (congrArg some hn.symm), h⟩
  · split
    · split
      · change Chain s.callers (s.frame.finish i .nothing).function.name
        rw [Frame.finish_function]
        exact h
      · rename_i fault hl
        exact h.failAt ⟨fun _ ↦ htrap, library_faults _ _ _ fault hl⟩
    · exact h.failAt ((show IsPlain (.undefinedFunction _) from rfl).causedBy i)

theorem jump (h : s.Chained) {target : Bytes} {frame : Frame}
    (hj : s.frame.jump target = .ok frame) : State.Chained { s with frame } := by
  unfold Frame.jump at hj
  split at hj
  · cases hj
    exact h
  · cases hj

theorem execute (h : s.Chained) (i : Instr) : (s.execute image i).Sound image := by
  unfold State.execute
  split
  · exact h
  · split
    · rename_i hj
      exact h.jump hj
    · rename_i fault hj
      exact h.fail (jump_faults _ fault hj)
  · split
    · split
      · rename_i hj
        exact h.jump hj
      · rename_i fault hj
        exact h.fail (jump_faults _ fault hj)
    · rename_i fault hx
      exact h.fail (operand_faults _ fault hx)
  · split
    · exact h.leave _
    · rename_i fault hx
      exact h.fail (operand_faults _ fault hx)
  · exact h.leave _
  · split
    · exact h.call rfl _
    · rename_i fault hx
      exact h.failAt ((operands_faults _ fault hx).causedBy _)
  · split
    · exact h.call rfl _
    · rename_i fault hx
      exact h.failAt ((operands_faults _ fault hx).causedBy _)
  · split
    · change Chain s.callers (s.frame.finish i _).function.name
      rw [Frame.finish_function]
      exact h
    · rename_i fault he
      exact h.failAt (effect_faults _ i fault he)

end State.Chained

theorem step_sound (h : s.Chained) : (step image s).Sound image := by
  rcases step_cases image s with ⟨-, hs⟩ | ⟨-, -, hs⟩ | ⟨i, ahead, -, -, hs⟩ <;> rw [hs]
  · exact h.fail rfl
  · exact ⟨h, .inl rfl, fun _ he ↦ by cases he; rfl, nofun⟩
  · refine State.Chained.execute ?_ i
    exact h

theorem advance_sound {next : Next} (h : next.Sound image) (n : Nat) :
    (next.advance image n).Sound image := by
  induction n generalizing next with
  | zero =>
    rw [Next.advance_zero]
    exact h
  | succ n ih =>
    cases next with
    | running s => exact ih (step_sound h)
    | returned v s =>
      rw [Next.advance_returned]
      exact h
    | failed failure s =>
      rw [Next.advance_failed]
      exact h

/-- A call on the way to a failure, and the function that it leads into. -/
def hop (call : Instr) : Bytes :=
  call.text ++ 58 :: (ascii " in @" ++ (call.callee?.getD [] ++ ascii ": "))

def spoken (trace : List Context) : Bytes := trace.flatMap fun c ↦ c.text ++ ascii ": "

theorem chain_text {callers : List (Frame × Instr)} {name : Bytes} (h : Chain callers name) :
    spoken (callers.reverse.flatMap (fun (frame, call) ↦
        [.function frame.function.name, .instr call]) ++ [.function name])
      = ascii "in @main: " ++ (callers.reverse.map Prod.snd).flatMap hop := by
  induction callers generalizing name with
  | nil =>
    rw [show name = ascii "main" from h]
    rfl
  | cons caller rest ih =>
    obtain ⟨frame, call⟩ := caller
    obtain ⟨hcall, hrest⟩ := h
    have hi := ih hrest
    simp only [spoken, List.flatMap_append, List.flatMap_cons, List.flatMap_nil, List.append_nil]
      at hi
    simp only [spoken, List.reverse_cons, List.flatMap_append, List.flatMap_cons, List.flatMap_nil,
      List.append_nil, List.map_append, List.map_cons, List.map_nil, ← List.append_assoc, hi]
    simp [hop, hcall, Context.text, ascii]

/-- The calls on the way to a state, from the outside in. -/
def State.calls (s : State) : List Instr := s.callers.reverse.map Prod.snd

theorem callee_of_chain {callers : List (Frame × Instr)} {name : Bytes} (h : Chain callers name) :
    ∀ call ∈ callers.map Prod.snd, ∃ callee, call.callee? = some callee := by
  induction callers generalizing name with
  | nil => exact fun _ hc ↦ (List.not_mem_nil hc).elim
  | cons caller rest ih => exact List.forall_mem_cons.2 ⟨⟨name, h.1⟩, ih h.2⟩

theorem State.Chained.calls (h : s.Chained) :
    ∀ call ∈ s.calls, ∃ callee, call.callee? = some callee := by
  intro call hc
  rw [State.calls, List.map_reverse, List.mem_reverse] at hc
  exact callee_of_chain h call hc

theorem guarded_of_mayTrap {i : Instr} (h : mayTrap i = true) :
    guarded 58 false i.text = true := by
  cases i with
  | bin dst op x y =>
    cases op with
    | sdiv =>
      apply guarded_defining colon_isCut
      rw [Instr.ofTwo, List.append_assoc, List.append_assoc, guarded_append (by decide),
        guarded_append (guarded_operand x), guarded_append (by decide)]
      exact guarded_bare y
    | _ => cases h
  | load dst elem addr =>
    apply guarded_defining colon_isCut
    rw [List.append_assoc, List.append_assoc, guarded_append (by decide),
      guarded_append (guarded_type colon_isCut elem), guarded_append (by decide)]
    exact guarded_operand addr
  | store value addr =>
    rw [Instr.text, List.append_assoc, List.append_assoc, guarded_append (by decide),
      guarded_append (guarded_operand value), guarded_append (by decide)]
    exact guarded_operand addr
  | call dst result callee xs =>
    obtain ⟨_, _, _, _, hg⟩ := Instr.text_of_callee (i := .call dst result callee xs) rfl
    exact hg
  | callVoid callee xs =>
    obtain ⟨_, _, _, _, hg⟩ := Instr.text_of_callee (i := .callVoid callee xs) rfl
    exact hg
  | _ => cases h

theorem trap_message {fault : Fault} (h : fault.isTrap = true) :
    ascii "trap: " <+: fault.message := by
  cases fault with
  | divisionByZero | divisionOverflow | stepLimit | depthLimit | noAddress | outside
  | storeToConstant => simp [Fault.message, ascii]
  | _ => cases h

theorem text_ne_trap {i : Instr} (hi : mayTrap i = true) {said : Bytes}
    (h : ascii "trap: " <+: said) (back : Bytes) : i.text ++ back ≠ said := by
  rintro rfl
  obtain ⟨rest, he⟩ := h
  cases i with
  | bin | load | store | call | callVoid => cases (List.cons.inj he).1
  | _ => cases hi

/-- What a message says behind the calls: the fault, and before it the instruction that has it. -/
def ending (i? : Option Instr) (said : Bytes) : Bytes :=
  match i? with
  | none => said
  | some i => i.text ++ 58 :: 32 :: said

theorem ending_ne_hop {i? : Option Instr} (hi : ∀ i ∈ i?, mayTrap i = true) {said : Bytes}
    (hs : ascii "trap: " <+: said) {call : Instr} {callee : Bytes}
    (hc : call.callee? = some callee) (rest : Bytes) : ending i? said ≠ hop call ++ rest := by
  intro he
  have ht := mayTrap_of_callee hc
  rw [hop, List.append_assoc] at he
  cases i? with
  | none => exact text_ne_trap ht hs _ he.symm
  | some i =>
    obtain ⟨-, hback⟩ :=
      eq_of_append_mark (guarded_of_mayTrap (hi i rfl)) (guarded_of_mayTrap ht) he
    obtain ⟨more, rfl⟩ := hs
    cases (List.cons.inj (List.cons.inj hback).2).1

theorem ending_inj {i? i?' : Option Instr} (hi : ∀ i ∈ i?, mayTrap i = true)
    (hi' : ∀ i ∈ i?', mayTrap i = true) {said said' : Bytes} (hs : ascii "trap: " <+: said)
    (hs' : ascii "trap: " <+: said') (h : ending i? said = ending i?' said') : said = said' := by
  cases i? with
  | none =>
    cases i?' with
    | none => exact h
    | some i' => exact absurd h.symm (text_ne_trap (hi' i' rfl) hs _)
  | some i =>
    cases i?' with
    | none => exact absurd h (text_ne_trap (hi i rfl) hs' _)
    | some i' =>
      obtain ⟨-, hback⟩ := eq_of_append_mark (guarded_of_mayTrap (hi i rfl))
        (guarded_of_mayTrap (hi' i' rfl)) h
      exact (List.cons.inj hback).2

theorem hop_inj {call call' : Instr} {callee callee' rest rest' : Bytes}
    (hc : call.callee? = some callee) (hc' : call'.callee? = some callee')
    (h : hop call ++ rest = hop call' ++ rest') : rest = rest' := by
  rw [hop, hop, List.append_assoc, List.append_assoc] at h
  obtain ⟨htext, hback⟩ := eq_of_append_mark (guarded_of_mayTrap (mayTrap_of_callee hc))
    (guarded_of_mayTrap (mayTrap_of_callee hc')) h
  obtain rfl := Instr.callee_of_text hc hc' htext
  rw [hc, hc'] at hback
  exact List.append_cancel_left hback

/-- Messages that are equal say the same of the fault: the calls before it are read off in step. -/
theorem said_eq {calls calls' : List Instr} {i? i?' : Option Instr} {said said' : Bytes}
    (hc : ∀ call ∈ calls, ∃ callee, call.callee? = some callee)
    (hc' : ∀ call ∈ calls', ∃ callee, call.callee? = some callee)
    (hi : ∀ i ∈ i?, mayTrap i = true) (hi' : ∀ i ∈ i?', mayTrap i = true)
    (hs : ascii "trap: " <+: said) (hs' : ascii "trap: " <+: said')
    (h : calls.flatMap hop ++ ending i? said = calls'.flatMap hop ++ ending i?' said') :
    said = said' := by
  induction calls generalizing calls' with
  | nil =>
    cases calls' with
    | nil => exact ending_inj hi hi' hs hs' h
    | cons call' calls' =>
      obtain ⟨callee', hcall'⟩ := hc' call' List.mem_cons_self
      rw [List.flatMap_cons, List.append_assoc] at h
      exact absurd h (ending_ne_hop hi hs hcall' _)
  | cons call calls ih =>
    obtain ⟨⟨callee, hcall⟩, hrest⟩ := List.forall_mem_cons.1 hc
    rw [List.flatMap_cons, List.append_assoc] at h
    cases calls' with
    | nil => exact absurd h.symm (ending_ne_hop hi' hs' hcall _)
    | cons call' calls' =>
      obtain ⟨⟨callee', hcall'⟩, hrest'⟩ := List.forall_mem_cons.1 hc'
      rw [List.flatMap_cons, List.append_assoc] at h
      exact ih hrest hrest' (hop_inj hcall hcall' h)

theorem Blames.message {failure : Failure} (hb : Blames image s failure) (hs : s.Chained)
    (ht : failure.fault.isTrap = true) :
    ∃ i? : Option Instr, (∀ i ∈ i?, mayTrap i = true) ∧ failure.message
      = ascii "in @main: " ++ (s.calls.flatMap hop ++ ending i? failure.fault.message) := by
  have htrace : spoken s.trace = ascii "in @main: " ++ s.calls.flatMap hop := chain_text hs
  have hmessage : failure.message = spoken failure.trace ++ failure.fault.message := rfl
  rcases hb.way with hw | ⟨i, hw, hi⟩
  · refine ⟨none, by simp, ?_⟩
    rw [hmessage, hw, htrace, List.append_assoc]
    rfl
  · refine ⟨some i, by simpa using hi ht, ?_⟩
    have hspoken : spoken (s.trace ++ [.instr i]) = spoken s.trace ++ (i.text ++ ascii ": ") := by
      simp [spoken, Context.text]
    rw [hmessage, hw, hspoken, htrace, List.append_assoc, List.append_assoc, List.append_assoc]
    rfl

/-- What a caller sees of a failure: whether it is a trap, and the message. -/
def Failure.seen (failure : Failure) : Bool × Bytes := (failure.fault.isTrap, failure.message)

theorem eq_stepLimit {fault : Fault} {limit : Int} (ht : fault.isTrap = true)
    (h : fault.message = (Fault.stepLimit limit).message) : fault = .stepLimit limit := by
  cases fault with
  | stepLimit other =>
    have ho := List.append_cancel_left (List.append_cancel_right h)
    rw [ofInt_inj ho]
  | divisionByZero | divisionOverflow | depthLimit | noAddress | outside | storeToConstant =>
    simp [Fault.message, ascii] at h
  | _ => cases ht

theorem eq_depthLimit {fault : Fault} {limit : Int} (ht : fault.isTrap = true)
    (h : fault.message = (Fault.depthLimit limit).message) : fault = .depthLimit limit := by
  cases fault with
  | depthLimit other => rw [ofInt_inj (List.append_cancel_left h)]
  | divisionByZero | divisionOverflow | stepLimit | noAddress | outside | storeToConstant =>
    simp [Fault.message, ascii] at h
  | _ => cases ht

theorem seen_ne_of_limit {other : Image} {t : State} {failure failure' : Failure} {limit : Int}
    (hs : s.Chained) (ht : t.Chained) (hb : Blames image s failure) (hb' : Blames other t failure')
    (hl : failure.fault = .stepLimit limit ∧ limit ≠ other.maxSteps.toInt ∨
      failure.fault = .depthLimit limit ∧ limit ≠ other.maxDepth) :
    failure.seen ≠ failure'.seen := by
  intro he
  obtain ⟨htrap', hmessage⟩ := Prod.mk.inj he
  have htrap : failure.fault.isTrap = true := by
    rcases hl with ⟨hf, -⟩ | ⟨hf, -⟩ <;> rw [hf] <;> rfl
  rw [htrap] at htrap'
  obtain ⟨i?, hi, hm⟩ := hb.message hs htrap
  obtain ⟨i?', hi', hm'⟩ := hb'.message ht htrap'.symm
  rw [hm, hm'] at hmessage
  have hsaid := said_eq hs.calls ht.calls hi hi' (trap_message htrap) (trap_message htrap'.symm)
    (List.append_cancel_left hmessage)
  rcases hl with ⟨hf, hne⟩ | ⟨hf, hne⟩
  · rw [hf] at hsaid
    exact hne (hb'.stepLimit limit (eq_stepLimit htrap'.symm hsaid.symm))
  · rw [hf] at hsaid
    exact hne (hb'.depthLimit limit (eq_depthLimit htrap'.symm hsaid.symm))

theorem seen_ne_of_refused {failure : Failure} (hs : s.Chained) (hb : Blames image s failure)
    (limit : Int) : Failure.seen ⟨[], .depthLimit limit⟩ ≠ failure.seen := by
  intro he
  obtain ⟨htrap, hmessage⟩ := Prod.mk.inj he
  obtain ⟨i?, -, hm⟩ := hb.message hs htrap.symm
  rw [hm] at hmessage
  cases (List.cons.inj hmessage).1

end PZero.Machine
