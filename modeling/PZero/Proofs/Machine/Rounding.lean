import PZero.Proofs.IR.Floats
import PZero.Proofs.Machine.Cut

namespace PZero.Machine

open IR

def Fault.seen (fault : Fault) : Bool × Bytes := (fault.isTrap, fault.message)

def Image.mapFloats (f : UInt64 → UInt64) (image : Image) : Image :=
  { image with module := image.module.mapFloats f }

def Frame.mapFloats (f : UInt64 → UInt64) (frame : Frame) : Frame :=
  { frame with
    function := frame.function.mapFloats f
    ahead := frame.ahead.map (Instr.mapFloats f) }

def State.mapFloats (f : UInt64 → UInt64) (s : State) : State :=
  { s with
    frame := s.frame.mapFloats f
    callers := s.callers.map fun x ↦ (x.1.mapFloats f, x.2.mapFloats f) }

def Session.mapFloats (f : UInt64 → UInt64) (session : Session) : Session :=
  { session with image := session.image.mapFloats f }

theorem mapError_bind {ε ε' α β : Type} (e : ε → ε') (x : Except ε α) (k : α → Except ε β) :
    (x >>= k).mapError e = x.mapError e >>= fun a ↦ (k a).mapError e := by
  cases x <;> rfl

theorem mapError_map {ε ε' α β : Type} (e : ε → ε') (x : Except ε α) (k : α → β) :
    (x.map k).mapError e = (x.mapError e).map k := by
  cases x <;> rfl

variable {f : UInt64 → UInt64} {image : Image} {frame : Frame}

mutual

theorem constant_mapFloats (h : Unseen f) : ∀ c : Constant,
    ((image.mapFloats f).constant (c.mapFloats f)).mapError Fault.seen =
      (image.constant c).mapError Fault.seen
  | .int bits value => rfl
  | .float kind bits => by
    cases kind with
    | single => simp only [Constant.mapFloats, Image.constant, h bits]
    | half | double => rfl
  | .global name type => rfl
  | .array elem values => by
    have ht := Constant.text_mapFloats h (.array elem values)
    rw [Constant.mapFloats] at ht
    simp only [Constant.mapFloats, Image.constant, Except.mapError, Fault.seen, Fault.message, ht,
      Fault.isTrap]
  | .gep inBounds elem addr indices => by
    simp only [Constant.mapFloats, Image.constant, mapError_bind, constant_mapFloats h addr,
      indices_mapFloats h indices]
  | .zext value target => by
    simp only [Constant.mapFloats, Image.constant, mapError_bind, constant_mapFloats h value]

theorem indices_mapFloats (h : Unseen f) : ∀ cs : List Constant,
    ((image.mapFloats f).indices (Constant.mapAllFloats f cs)).mapError Fault.seen =
      (image.indices cs).mapError Fault.seen
  | [] => rfl
  | c :: cs => by
    simp only [Constant.mapAllFloats, Image.indices, mapError_bind, constant_mapFloats h c,
      indices_mapFloats h cs]

end

theorem operand_mapFloats (h : Unseen f) (x : Operand) :
    ((frame.mapFloats f).operand (image.mapFloats f) (x.mapFloats f)).mapError Fault.seen =
      (frame.operand image x).mapError Fault.seen := by
  cases x with
  | reg r => rfl
  | const c => exact constant_mapFloats h c

theorem operands_mapFloats (h : Unseen f) (xs : List Operand) :
    ((frame.mapFloats f).operands (image.mapFloats f) (xs.map (Operand.mapFloats f))).mapError
      Fault.seen = (frame.operands image xs).mapError Fault.seen := by
  induction xs with
  | nil => rfl
  | cons x xs ih =>
    simp only [List.map_cons, Frame.operands, mapError_bind, operand_mapFloats h, ih]

theorem incoming_mapFloats (h : Unseen f) (xs : List Incoming) :
    ((frame.mapFloats f).incoming (image.mapFloats f) (xs.map (Incoming.mapFloats f))).mapError
      Fault.seen = (frame.incoming image xs).mapError Fault.seen := by
  induction xs with
  | nil => rfl
  | cons x xs ih =>
    have hprevious : (frame.mapFloats f).previous = frame.previous := rfl
    simp only [List.map_cons, Frame.incoming, Incoming.mapFloats, hprevious]
    split
    · exact operand_mapFloats h x.value
    · exact ih

theorem effect_mapFloats (h : Unseen f) (memory : Memory) (i : Instr) :
    (effect (image.mapFloats f) memory (frame.mapFloats f) (i.mapFloats f)).mapError Fault.seen =
      (effect image memory frame i).mapError Fault.seen := by
  cases i <;> simp only [effect, Instr.mapFloats, mapError_bind, operand_mapFloats h,
    operands_mapFloats h, incoming_mapFloats h]

theorem after?_mapFloats (name : Bytes) (code : List Instr) :
    Frame.after? name (code.map (Instr.mapFloats f)) =
      (Frame.after? name code).map (List.map (Instr.mapFloats f)) := by
  induction code with
  | nil => rfl
  | cons i code ih =>
    cases i with
    | label other =>
      simp only [List.map_cons, Instr.mapFloats, Frame.after?, ih]
      cases Frame.after? name code with
      | some found => rfl
      | none =>
        dsimp only [Option.map]
        split <;> rfl
    | _ =>
      simp only [List.map_cons, Instr.mapFloats, Frame.after?, ih]
      cases Frame.after? name code <;> rfl

theorem jump_mapFloats (target : Bytes) :
    (frame.mapFloats f).jump target = (frame.jump target).map (Frame.mapFloats f) := by
  have hbody : (frame.mapFloats f).function.body =
      frame.function.body.map (Instr.mapFloats f) := rfl
  rw [Frame.jump, Frame.jump, hbody, after?_mapFloats]
  cases Frame.after? target frame.function.body <;> rfl

theorem function?_mapFloats (name : Bytes) :
    (image.mapFloats f).function? name = (image.function? name).map (Function.mapFloats f) := by
  have hfunctions : (image.mapFloats f).module.functions =
      image.module.functions.map (Function.mapFloats f) := rfl
  rw [Image.function?, Image.function?, hfunctions, ← List.map_reverse, List.find?_map]
  rfl

/-- A step from a state with changed floats beside the step from the state as it was. -/
inductive Next.Mirrors (f : UInt64 → UInt64) : Next → Next → Prop
  | running (s : State) : Mirrors f (.running (s.mapFloats f)) (.running s)
  | returned (v : Value) (s : State) : Mirrors f (.returned v (s.mapFloats f)) (.returned v s)
  | failed {failure failure' : Failure} (hseen : failure'.seen = failure.seen) (s : State) :
    Mirrors f (.failed failure' (s.mapFloats f)) (.failed failure s)

variable {s : State} {fault fault' : Fault}

theorem spoken_trace (h : Unseen f) : spoken (s.mapFloats f).trace = spoken s.trace := by
  have hcallers : (s.mapFloats f).callers.reverse =
      s.callers.reverse.map fun x ↦ (x.1.mapFloats f, x.2.mapFloats f) := List.map_reverse.symm
  rw [State.trace, State.trace, hcallers, spoken, spoken, List.flatMap_append, List.flatMap_append]
  congr 1
  rw [List.flatMap_map, List.flatMap_assoc, List.flatMap_assoc]
  congr 1
  funext x
  simp [Context.text, Instr.text_mapFloats h, Frame.mapFloats, Function.mapFloats]

theorem fail_mirrors (h : Unseen f) (hs : fault'.seen = fault.seen) :
    ((s.mapFloats f).fail fault').Mirrors f (s.fail fault) := by
  have hunwind : (s.mapFloats f).unwind = s.unwind.mapFloats f := by
    simp [State.unwind, State.mapFloats]
  rw [State.fail, State.fail, hunwind]
  refine .failed ?_ s.unwind
  obtain ⟨htrap, hmessage⟩ := Prod.mk.inj hs
  change (fault'.isTrap, spoken (s.mapFloats f).trace ++ fault'.message) =
    (fault.isTrap, spoken s.trace ++ fault.message)
  rw [htrap, hmessage, spoken_trace h]

theorem failAt_mirrors (h : Unseen f) (i : Instr) (hs : fault'.seen = fault.seen) :
    ((s.mapFloats f).failAt (i.mapFloats f) fault').Mirrors f (s.failAt i fault) := by
  have hspoken : ∀ (trace : List Context) (i : Instr),
      spoken (trace ++ [.instr i]) = spoken trace ++ (i.text ++ ascii ": ") := fun trace i ↦ by
    simp [spoken, Context.text]
  have hunwind : (s.mapFloats f).unwind = s.unwind.mapFloats f := by
    simp [State.unwind, State.mapFloats]
  rw [State.failAt, State.failAt, hunwind]
  refine .failed ?_ s.unwind
  obtain ⟨htrap, hmessage⟩ := Prod.mk.inj hs
  change (fault'.isTrap, spoken ((s.mapFloats f).trace ++ [.instr (i.mapFloats f)]) ++
    fault'.message) = (fault.isTrap, spoken (s.trace ++ [.instr i]) ++ fault.message)
  rw [hspoken, hspoken, htrap, hmessage, spoken_trace h, Instr.text_mapFloats h]

theorem finish_mapFloats (i : Instr) (v : Value) :
    (frame.mapFloats f).finish (i.mapFloats f) v = (frame.finish i v).mapFloats f := by
  cases i <;> rfl

theorem leave_mirrors (v : Value) : ((s.mapFloats f).leave v).Mirrors f (s.leave v) := by
  obtain ⟨memory, output, steps, depth, frame, callers⟩ := s
  cases callers with
  | nil => exact .returned v ⟨memory, output, steps, depth - 1, frame, []⟩
  | cons x rest =>
    have hr := Next.Mirrors.running (f := f)
      ⟨memory, output, steps, depth - 1, x.1.finish x.2 v, rest⟩
    rw [State.mapFloats, ← finish_mapFloats] at hr
    exact hr

theorem call_mirrors (h : Unseen f) (i : Instr) (callee : Bytes) (args : List Value) :
    ((s.mapFloats f).call (image.mapFloats f) (i.mapFloats f) callee args).Mirrors f
      (s.call image i callee args) := by
  have hdepth : (s.mapFloats f).depth = s.depth := rfl
  rw [State.call, State.call, function?_mapFloats]
  cases image.function? callee with
  | some F =>
    have hlimit : (image.mapFloats f).maxDepth = image.maxDepth := rfl
    have hparams : (F.mapFloats f).params = F.params := rfl
    simp only [Option.map_some, hparams, hdepth, hlimit]
    split
    · exact failAt_mirrors h i rfl
    · split
      · exact failAt_mirrors h i rfl
      · exact .running
          ⟨s.memory, s.output, s.steps, s.depth + 1, .enter F args, (s.frame, i) :: s.callers⟩
  | none =>
    have hexternals : (image.mapFloats f).hasExternal callee = image.hasExternal callee := rfl
    have hmemory : (s.mapFloats f).memory = s.memory := rfl
    simp only [Option.map_none, hexternals, hmemory]
    split
    · split
      · rename_i text _
        have hr := Next.Mirrors.running (f := f)
          { s with output := s.output ++ text, frame := s.frame.finish i .nothing }
        rw [State.mapFloats, ← finish_mapFloats] at hr
        exact hr
      · exact failAt_mirrors h i rfl
    · exact failAt_mirrors h i rfl

theorem mapError_cases {ε ε' α : Type} {e : ε → ε'} {x y : Except ε α}
    (h : x.mapError e = y.mapError e) :
    (∃ a, x = .ok a ∧ y = .ok a) ∨ ∃ u v, x = .error u ∧ y = .error v ∧ e u = e v := by
  cases x with
  | ok a =>
    cases y with
    | ok b => exact .inl ⟨a, rfl, congrArg _ (Except.ok.inj h).symm⟩
    | error v => cases h
  | error u =>
    cases y with
    | ok b => cases h
    | error v => exact .inr ⟨u, v, rfl, rfl, Except.error.inj h⟩

theorem branch_mirrors (h : Unseen f) (target : Bytes) :
    (match (s.mapFloats f).frame.jump target with
      | .ok frame => .running { s.mapFloats f with frame }
      | .error fault => (s.mapFloats f).fail fault : Next).Mirrors f
    (match s.frame.jump target with
      | .ok frame => .running { s with frame }
      | .error fault => s.fail fault) := by
  have hjump : (s.mapFloats f).frame.jump target = (s.frame.jump target).map (Frame.mapFloats f) :=
    jump_mapFloats target
  rw [hjump]
  cases s.frame.jump target with
  | ok frame => exact .running { s with frame }
  | error fault => exact fail_mirrors h rfl

theorem perform_mapFloats (i : Instr) (e : Effect) :
    (s.mapFloats f).perform (i.mapFloats f) e = (s.perform i e).mapFloats f := by
  have hfinish : ∀ v, (s.mapFloats f).frame.finish (i.mapFloats f) v =
      (s.frame.finish i v).mapFloats f := finish_mapFloats i
  simp only [State.perform, hfinish]
  rfl

theorem operate_mirrors (h : Unseen f) (i : Instr) :
    (match effect (image.mapFloats f) (s.mapFloats f).memory (s.mapFloats f).frame
        (i.mapFloats f) with
      | .ok e => .running ((s.mapFloats f).perform (i.mapFloats f) e)
      | .error fault => (s.mapFloats f).failAt (i.mapFloats f) fault : Next).Mirrors f
    (match effect image s.memory s.frame i with
      | .ok e => .running (s.perform i e)
      | .error fault => s.failAt i fault) := by
  have heffect : (effect (image.mapFloats f) (s.mapFloats f).memory (s.mapFloats f).frame
      (i.mapFloats f)).mapError Fault.seen =
        (effect image s.memory s.frame i).mapError Fault.seen := effect_mapFloats h s.memory i
  rcases mapError_cases heffect with ⟨e, he', he⟩ | ⟨u, v, he', he, hs⟩ <;>
    simp only [he', he]
  · rw [perform_mapFloats]
    exact .running _
  · exact failAt_mirrors h i hs

theorem execute_mirrors (h : Unseen f) (i : Instr) :
    ((s.mapFloats f).execute (image.mapFloats f) (i.mapFloats f)).Mirrors f
      (s.execute image i) := by
  have hoperand : ∀ x : Operand, ((s.mapFloats f).frame.operand (image.mapFloats f)
      (x.mapFloats f)).mapError Fault.seen = (s.frame.operand image x).mapError Fault.seen :=
    operand_mapFloats h
  have hoperands : ∀ xs, ((s.mapFloats f).frame.operands (image.mapFloats f)
      (xs.map (Operand.mapFloats f))).mapError Fault.seen =
        (s.frame.operands image xs).mapError Fault.seen := operands_mapFloats h
  cases i with
  | label name => exact .running { s with frame := s.frame.pass name }
  | br target => exact branch_mirrors h target
  | condBr cond then_ else_ =>
    rcases mapError_cases (hoperand cond) with ⟨c, he', he⟩ | ⟨u, v, he', he, hs⟩ <;>
      simp only [Instr.mapFloats, State.execute, he', he]
    · exact branch_mirrors h _
    · exact fail_mirrors h hs
  | ret value =>
    rcases mapError_cases (hoperand value) with ⟨v, he', he⟩ | ⟨u, v, he', he, hs⟩ <;>
      simp only [Instr.mapFloats, State.execute, he', he]
    · exact leave_mirrors v
    · exact fail_mirrors h hs
  | retVoid => exact leave_mirrors .nothing
  | call dst result callee args =>
    rcases mapError_cases (hoperands args) with ⟨vs, he', he⟩ | ⟨u, v, he', he, hs⟩ <;>
      simp only [Instr.mapFloats, State.execute, he', he]
    · exact call_mirrors h (.call dst result callee args) callee vs
    · exact failAt_mirrors h (.call dst result callee args) hs
  | callVoid callee args =>
    rcases mapError_cases (hoperands args) with ⟨vs, he', he⟩ | ⟨u, v, he', he, hs⟩ <;>
      simp only [Instr.mapFloats, State.execute, he', he]
    · exact call_mirrors h (.callVoid callee args) callee vs
    · exact failAt_mirrors h (.callVoid callee args) hs
  | _ => exact operate_mirrors h _

theorem step_mirrors (h : Unseen f) (s : State) :
    (step (image.mapFloats f) (s.mapFloats f)).Mirrors f (step image s) := by
  let s' : State := s.mapFloats f
  let image' : Image := image.mapFloats f
  cases ha : s.frame.ahead with
  | nil =>
    have ha' : s'.frame.ahead = [] := congrArg (List.map (Instr.mapFloats f)) ha
    rw [step_ended ha, step_ended ha']
    exact fail_mirrors h rfl
  | cons i ahead =>
    have ha' : s'.frame.ahead = i.mapFloats f :: ahead.map (Instr.mapFloats f) :=
      congrArg (List.map (Instr.mapFloats f)) ha
    cases hx : image.exceeds (s.counted image).steps with
    | true =>
      have hx' : image'.exceeds (s'.counted image').steps = true := hx
      rw [step_stopped (by simp [ha]) hx, step_stopped (by simp [ha']) hx']
      exact fail_mirrors (s := s.counted image) h rfl
    | false =>
      have hx' : image'.exceeds (s'.counted image').steps = false := hx
      rw [step_taken ha hx, step_taken ha' hx']
      exact execute_mirrors (s := { s.counted image with frame := { s.frame with ahead } }) h i

/-- What a caller sees of a call, and the session that goes on. -/
def Ended.left (ended : Ended) : (Except (Bool × Bytes) Int × Bytes) × Session :=
  (ended.seen, ended.session)

theorem run_mapFloats (h : Unseen f) (fuel : Nat) (s : State) :
    (run (image.mapFloats f) fuel (s.mapFloats f)).map Ended.left =
      (run image fuel s).map fun ended ↦ (ended.seen, ended.session.mapFloats f) := by
  induction fuel generalizing s with
  | zero => rfl
  | succ fuel ih =>
    have hs := @step_mirrors f image h s
    rw [run, run]
    generalize step (image.mapFloats f) (s.mapFloats f) = next' at hs
    generalize step image s = next at hs
    cases hs with
    | running s => exact ih s
    | returned v s => rfl
    | failed hseen s =>
      simp only [Option.map_some, Ended.left, Ended.seen, Except.mapError, hseen]
      rfl

theorem main_mapFloats (h : Unseen f) (fuel : Nat) (session : Session) :
    ((session.mapFloats f).main fuel).map Ended.left =
      (session.main fuel).map fun ended ↦ (ended.seen, ended.session.mapFloats f) := by
  have hF' : (session.mapFloats f).image.function? (ascii "main") =
      (session.image.function? (ascii "main")).map (Function.mapFloats f) :=
    function?_mapFloats _
  cases hF : session.image.function? (ascii "main") with
  | none =>
    rw [hF] at hF'
    rw [main_eq_noMain hF, main_eq_noMain hF']
    rfl
  | some F =>
    rw [hF] at hF'
    by_cases hps : F.params = []
    · by_cases hd : session.depth < session.image.maxDepth
      · rw [main_eq_run hF hps hd, main_eq_run hF' hps hd]
        exact run_mapFloats h fuel (session.entry F)
      · rw [main_eq_depthLimit hF hps hd, main_eq_depthLimit hF' hps hd]
        rfl
    · rw [main_eq_takesParameters hF hps, main_eq_takesParameters hF' hps]
      rfl

theorem calls_mapFloats (h : Unseen f) (fuel n : Nat) (session : Session) :
    ((session.mapFloats f).calls fuel n).map (List.map Ended.seen) =
      (session.calls fuel n).map (List.map Ended.seen) := by
  induction n generalizing session with
  | zero => rfl
  | succ n ih =>
    have hrest : ∀ (ended : Ended) (rest : Option (List Ended)),
        (rest.bind fun ends ↦ some (ended :: ends)).map (List.map Ended.seen) =
          (rest.map (List.map Ended.seen)).map (ended.seen :: ·) := by
      intro ended rest
      cases rest <;> rfl
    have hm := main_mapFloats h fuel session
    simp only [Session.calls, Option.bind_eq_bind, Option.pure_def]
    cases he : session.main fuel with
    | none =>
      rw [he] at hm
      rw [Option.map_eq_none_iff.1 hm]
    | some ended =>
      rw [he] at hm
      obtain ⟨ended', he', hl⟩ := Option.map_eq_some_iff.1 hm
      obtain ⟨hseen, hsession⟩ := Prod.mk.inj hl
      rw [he', Option.bind_some, Option.bind_some, hrest, hrest, hsession, ih, hseen]

mutual

theorem flatten_mapFloats (h : Unseen f) : ∀ c : Constant,
    (flatten (image.mapFloats f) (c.mapFloats f)).mapError Fault.seen =
      (flatten image c).mapError Fault.seen
  | .array elem values => by
    rw [Constant.mapFloats, flatten, flatten, flattenAll_mapFloats h values]
  | .int bits value => rfl
  | .float kind bits => by
    have hc := @constant_mapFloats f image h (.float kind bits)
    cases kind <;> simp only [Constant.mapFloats, flatten, mapError_map] at hc ⊢ <;> rw [hc]
  | .global name type => rfl
  | .gep inBounds elem addr indices => by
    have hc := @constant_mapFloats f image h (.gep inBounds elem addr indices)
    simp only [Constant.mapFloats, flatten, mapError_map] at hc ⊢
    rw [hc]
  | .zext value target => by
    have hc := @constant_mapFloats f image h (.zext value target)
    simp only [Constant.mapFloats, flatten, mapError_map] at hc ⊢
    rw [hc]

theorem flattenAll_mapFloats (h : Unseen f) : ∀ cs : List Constant,
    (flattenAll (image.mapFloats f) (Constant.mapAllFloats f cs)).mapError Fault.seen =
      (flattenAll image cs).mapError Fault.seen
  | [] => rfl
  | c :: cs => by
    simp only [Constant.mapAllFloats, flattenAll, mapError_bind, flatten_mapFloats h c,
      flattenAll_mapFloats h cs]

end

theorem initialise_mapFloats (h : Unseen f) (memory : Memory) (g : Global) :
    (initialise (image.mapFloats f) memory (g.mapFloats f)).mapError Failure.seen =
      (initialise image memory g).mapError Failure.seen := by
  have hflatten : (flatten (image.mapFloats f) (g.mapFloats f).value).mapError Fault.seen =
      (flatten image g.value).mapError Fault.seen := flatten_mapFloats h g.value
  rcases mapError_cases hflatten with ⟨values, he', he⟩ | ⟨u, v, he', he, hs⟩ <;>
    simp only [initialise, he', he]
  · rfl
  · obtain ⟨htrap, hmessage⟩ := Prod.mk.inj hs
    simp only [Except.mapError, Failure.seen, Failure.message, htrap, hmessage]
    rfl

theorem foldlM_mapFloats (h : Unseen f) (gs : List Global) (memory : Memory) :
    ((gs.map (Global.mapFloats f)).foldlM (initialise (image.mapFloats f)) memory).mapError
      Failure.seen = (gs.foldlM (initialise image) memory).mapError Failure.seen := by
  induction gs generalizing memory with
  | nil => rfl
  | cons g gs ih =>
    simp only [List.map_cons, List.foldlM_cons, mapError_bind, initialise_mapFloats h, ih]

/-- What can be seen of a module: whether it can be loaded, and what some calls of `main` do. -/
def behaviour (m : Module) (limits : Limits) (fuel calls : Nat) :
    Except (Bool × Bytes) (Option (List (Except (Bool × Bytes) Int × Bytes))) :=
  ((Session.load m limits).mapError Failure.seen).map fun session ↦
    (session.calls fuel calls).map (List.map Ended.seen)

theorem behaviour_mapFloats (h : Unseen f) (m : Module) :
    behaviour (m.mapFloats f) = behaviour m := by
  funext limits fuel calls
  have hblocks : (m.mapFloats f).globals.mapM globalBlock = m.globals.mapM globalBlock := by
    change (m.globals.map (Global.mapFloats f)).mapM globalBlock = _
    rw [List.mapM_map]
    rfl
  have himage : Image.ofModule (m.mapFloats f) limits = (Image.ofModule m limits).mapFloats f := by
    have hnames : globalBlocks (m.mapFloats f).globals = globalBlocks m.globals := by
      simp [globalBlocks, Module.mapFloats, Global.mapFloats, Function.comp_def]
    rw [Image.ofModule, hnames]
    rfl
  have hfold : ∀ memory, ((m.mapFloats f).globals.foldlM
      (initialise ((Image.ofModule m limits).mapFloats f)) memory).mapError Failure.seen = _ :=
    foldlM_mapFloats h m.globals
  have hcalls : ∀ loaded : Except (Bool × Bytes) Memory,
      (loaded.map fun memory ↦ (⟨(Image.ofModule m limits).mapFloats f, memory, 0, 0⟩
          : Session)).map
        (fun session ↦ (session.calls fuel calls).map (List.map Ended.seen)) =
      (loaded.map fun memory ↦ (⟨.ofModule m limits, memory, 0, 0⟩ : Session)).map
        fun session ↦ (session.calls fuel calls).map (List.map Ended.seen) := by
    intro loaded
    cases loaded with
    | error failure => rfl
    | ok memory =>
      exact congrArg Except.ok (calls_mapFloats h fuel calls ⟨.ofModule m limits, memory, 0, 0⟩)
  rw [behaviour, behaviour, load_eq, load_eq, himage, hblocks]
  simp only [mapError_map, mapError_bind, hfold]
  exact hcalls _

theorem behaviour_eq_of_rounded {m m' : Module} (h : m.rounded = m'.rounded) :
    behaviour m = behaviour m' := by
  let g : UInt64 → UInt64 := Function.invFun Binary.toSingle
  have hg : Unseen (g ∘ Binary.toSingle) := fun bits ↦ Function.invFun_eq ⟨bits, rfl⟩
  rw [← behaviour_mapFloats hg m, ← behaviour_mapFloats hg m', ← Module.mapFloats_mapFloats,
    ← Module.mapFloats_mapFloats]
  exact congrArg (fun m ↦ behaviour (m.mapFloats g)) h

end PZero.Machine
