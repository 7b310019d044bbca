import PZero.Proofs.Refinement.State

namespace PZero.Refinement

open IR Machine
open Lowering (Site Lower Adds lowerBody lowerMainBody paramRegisters)
open Semantics (Store Env Stop)
open Typing (Binding Scope)

/-- The code of a function of the image, lowered in a module that knows globals by their names. -/
def Lowered (pool : List Bytes) (F : Function) (code : Lower Unit) : Prop :=
  ∃ m s, code ⟨m, .new F.name F.params F.result⟩ = .ok ((), s) ∧ F.body = s.function.body ∧
    s.module.pool <+: pool ∧ ∀ {name c}, m.address? name = some c → ∃ type, c = .global name type

/-- An image that is made from a program and has no bound on its steps. -/
structure Linked (p : Typed.Program) (pool : List Bytes) (image : Image) : Prop where
  typed : p.WellTyped
  unlimited : image.maxSteps ≤ 0
  bounded : ∀ {name b}, image.globals.lookup name = some b → b < image.globals.length
  injective : ∀ {name name' b}, image.globals.lookup name = some b →
    image.globals.lookup name' = some b → name = name'
  apart : ∀ {name binding}, p.scope.lookup name = some binding → ∀ n : Nat, name ≠ Symbol.pooled n
  library : ∀ name ∈ Library.names, image.function? name = none ∧ image.hasExternal name = true
  functions : ∀ {name params body result},
    Semantics.function? p name = some (params, body, result) →
      ∃ F, image.function? name = some F ∧ paramRegisters params = .ok F.params ∧
        Lowered pool F (lowerBody params F.params body result)
  main : ∃ F, image.function? (ascii "main") = some F ∧ F.params = [] ∧
    Lowered pool F (lowerMainBody p.main)

def fetch (st : State) : State :=
  { st with frame := { st.frame with ahead := st.frame.ahead.tail } }

variable {p : Typed.Program} {pool : List Bytes} {image : Image} {F : Function} {s s' : Site}
  {slots : List Slot} {env : Env} {w : Store} {st st' : State} {i : Instr} {v : Value}

@[simp] theorem fetch_operand (x : Operand) :
    (fetch st).frame.operand image x = st.frame.operand image x :=
  Frame.operand_congr (by rfl) x

@[simp] theorem fetch_operands (xs : List Operand) :
    (fetch st).frame.operands image xs = st.frame.operands image xs :=
  Frame.operands_congr (by rfl) xs

theorem At.ahead (h : At F s st.frame) (hi : s.function.body ++ [i] <+: F.body) :
    st.frame.ahead = i :: (fetch st).frame.ahead := by
  obtain ⟨rest, hr⟩ := hi
  rw [h.body, List.append_assoc, List.append_cancel_left_eq] at hr
  simp only [fetch, ← hr]
  rfl

theorem step_eq (hu : image.maxSteps ≤ 0) (h : At F s st.frame)
    (hi : s.function.body ++ [i] <+: F.body) : step image st = (fetch st).execute image i := by
  rw [step_unbounded hu (h.ahead hi)]
  rfl

theorem At.next {frame : Frame} (h : At F s st.frame)
    (hb : s'.function.body = s.function.body ++ [i]) (hc : s'.function.current = s.function.current)
    (hi : s'.function.body <+: F.body) (hf : frame.function = st.frame.function)
    (ha : frame.ahead = (fetch st).frame.ahead) (hcur : frame.current = st.frame.current) :
    At F s' frame where
  function := hf.trans h.function
  body := by
    rw [h.body, hb, ha, h.ahead (hb ▸ hi), List.append_assoc]
    rfl
  current := by rw [hcur, h.current, hc]

theorem step_value (hu : image.maxSteps ≤ 0) (h : At F s st.frame)
    (hi : s.function.body ++ [i] <+: F.body)
    (hc : Computes image st.memory (fetch st).frame (.ok v) i) :
    step image st = .running ((fetch st).perform i (.value v)) := by
  have he : effect image (fetch st).memory (fetch st).frame i = .ok (.value v) := hc.1
  rw [step_eq hu h hi, hc.2, he]

theorem step_fault {fault : Fault} (hu : image.maxSteps ≤ 0) (h : At F s st.frame)
    (hi : s.function.body ++ [i] <+: F.body)
    (hc : Computes image st.memory (fetch st).frame (.error fault) i) :
    step image st = (fetch st).failAt i fault := by
  have he : effect image (fetch st).memory (fetch st).frame i = .error fault := hc.1
  rw [step_eq hu h hi, hc.2, he]

theorem Stands.define {type : Ty} {make : Register → Instr} (hl : Linked p pool image)
    (h : Stands p pool image F s slots env w st) (hw : Within F pool (s.define type make))
    (hr : (make (s.next type)).result? = some (s.next type))
    (hc : Computes image st.memory (fetch st).frame (.ok v) (make (s.next type))) :
    ∃ st', step image st = .running st' ∧
      Stands p pool image F (s.define type make) slots env w st' ∧
      Keeps image.globals.length s.function.nextRegister [] st st' ∧
      st'.frame.operand image (.reg (s.next type)) = .ok v := by
  have hi : s.function.body ++ [make (s.next type)] <+: F.body := hw.body
  refine ⟨_, step_value hl.unlimited h.control hi hc, ?_⟩
  have hf : ((fetch st).perform (make (s.next type)) (.value v)).frame =
      { (fetch st).frame with
        registers := Registers.set (s.next type).name v st.frame.registers } := by
    change (fetch st).frame.finish (make (s.next type)) v = _
    simp only [Frame.finish, hr]
    rfl
  have hk : Keeps image.globals.length s.function.nextRegister [] st
      ((fetch st).perform (make (s.next type)) (.value v)) := by
    refine ⟨fun k hk ↦ ?_, Nat.le_refl _, fun _ _ _ _ ↦ rfl, rfl, rfl⟩
    rw [hf]
    refine Registers.lookup_set_ne (fun he ↦ ?_) v st.frame.registers
    have := Bytes.ofNat_inj he
    omega
  refine ⟨h.keep hk ?_ rfl (h.below_le (Nat.le_succ _)) (h.store.congr rfl rfl), hk, ?_⟩
  · rw [hf]
    exact h.control.next rfl rfl hw.body rfl rfl rfl
  · rw [hf]
    exact Frame.operand_reg (Registers.lookup_set_self _ _ _)

theorem Stands.operate {r : Operand × Site} {got : Except Fault Value} {type : ValueType}
    {q : Except Stop Semantics.Value} {clock : Nat} (hl : Linked p pool image)
    (h : Stands p pool image F s slots env w st) (hw : Within F pool r.2)
    (hd : Defines image st.memory (fetch st).frame s r got) (ha : Agrees image type got q) :
    Simulates image (Carries p pool image) clock (.running st) (Semantics.ofExcept q w)
      fun v w' st' ↦ Stands p pool image F r.2 slots env w' st' ∧
        Keeps image.globals.length s.function.nextRegister [] st st' ∧
        st'.frame.operand image r.1 = .ok (encode v) ∧ v.type = type := by
  obtain ⟨ty, make, rfl, hr, hc⟩ := hd
  match q, ha with
  | .ok v, ⟨hg, ht⟩ =>
    obtain ⟨st', hs, hst, hk, hv⟩ := h.define hl hw hr (hg ▸ hc)
    refine .step ⟨w, h.store⟩ ?_
    rw [hs]
    exact .ok ⟨hst, hk, hv, ht⟩
  | .error (.trap cause), hg =>
    have hi : s.function.body ++ [make (s.next ty)] <+: F.body := hw.body
    refine .step ⟨w, h.store⟩ ?_
    rw [step_fault hl.unlimited h.control hi (hg ▸ hc)]
    exact .trap rfl (h.store.congr rfl rfl)

/-- Only control moves. -/
structure Moves (st st' : State) : Prop where
  registers : st'.frame.registers = st.frame.registers
  memory : st'.memory = st.memory
  output : st'.output = st.output
  callers : st'.callers = st.callers
  depth : st'.depth = st.depth

theorem Moves.keeps (h : Moves st st') (g n : Nat) (blocks : List Nat) :
    Keeps g n blocks st st' where
  registers k _ := by rw [h.registers]
  size := Nat.le_of_eq (by rw [h.memory])
  memory b _ _ _ := by rw [h.memory]
  callers := h.callers
  depth := h.depth

theorem Stands.move (h : Stands p pool image F s slots env w st) (hm : Moves st st')
    (hc : At F s' st'.frame) (hs : s'.function.scopes.flatten = s.function.scopes.flatten)
    (hb : ∀ x ∈ slots, x.address.Below s'.function.nextRegister) :
    Stands p pool image F s' slots env w st' :=
  h.keep (hm.keeps _ _ _) hc hs hb (h.store.congr hm.memory hm.output)

/-- A jump goes to the only site that starts a block with the label. -/
theorem jump_eq {target : Bytes} (h : At F s st.frame) (hl : (labels F.body).Nodup)
    (ht : (s'.start target).function.body <+: F.body) :
    ∃ frame, (fetch st).frame.jump target = .ok frame ∧ At F (s'.start target) frame ∧
      frame.registers = st.frame.registers ∧ frame.previous = s.function.current := by
  obtain ⟨rest, hr⟩ := ht
  have hb : F.body = s'.function.body ++ .label target :: rest := by
    rw [← hr]
    exact List.append_assoc _ [_] rest
  have ha : Frame.after? target (fetch st).frame.function.body = some rest := by
    change Frame.after? target st.frame.function.body = some rest
    rw [h.function, hb]
    exact Frame.after?_label (hb ▸ hl)
  refine ⟨{ (fetch st).frame with
    ahead := rest, previous := st.frame.current, current := target }, ?_, ?_, rfl, h.current⟩
  · simp only [Frame.jump, ha]
    rfl
  · exact ⟨h.function, hr.symm, rfl⟩

theorem step_br {target : Bytes} (hu : image.maxSteps ≤ 0) (h : At F s st.frame)
    (hl : (labels F.body).Nodup) (hi : s.function.body ++ [.br target] <+: F.body)
    (ht : (s'.start target).function.body <+: F.body) :
    ∃ st', step image st = .running st' ∧ At F (s'.start target) st'.frame ∧ Moves st st' ∧
      st'.frame.previous = s.function.current := by
  obtain ⟨frame, hj, hat, hr, hp⟩ := jump_eq h hl ht
  refine ⟨{ fetch st with frame }, ?_, hat, ⟨hr, rfl, rfl, rfl, rfl⟩, hp⟩
  rw [step_eq hu h hi]
  simp only [State.execute, hj]

theorem step_condBr {b : Bool} {cond : Operand} {yes no : Bytes} (hu : image.maxSteps ≤ 0)
    (h : At F s st.frame) (hl : (labels F.body).Nodup)
    (hi : s.function.body ++ [.condBr cond yes no] <+: F.body)
    (hc : st.frame.operand image cond = .ok (encode (.bool b)))
    (ht : (s'.start (if b then yes else no)).function.body <+: F.body) :
    ∃ st', step image st = .running st' ∧ At F (s'.start (if b then yes else no)) st'.frame ∧
      Moves st st' := by
  obtain ⟨frame, hj, hat, hr, -⟩ := jump_eq h hl ht
  refine ⟨{ fetch st with frame }, ?_, hat, ⟨hr, rfl, rfl, rfl, rfl⟩⟩
  have hb : (if (encode (.bool b)).number ≠ 0 then yes else no) = if b then yes else no := by
    cases b <;> rfl
  rw [step_eq hu h hi]
  simp only [State.execute, fetch_operand, hc, hb, hj]

theorem Stands.goto {target : Bytes} (hl : Linked p pool image)
    (h : Stands p pool image F s slots env w st) (hi : s.function.body ++ [.br target] <+: F.body)
    (hw : Within F pool (s'.start target))
    (hs : s'.function.scopes = s.function.scopes)
    (hb : ∀ x ∈ slots, x.address.Below s'.function.nextRegister) :
    ∃ st', step image st = .running st' ∧
      Stands p pool image F (s'.start target) slots env w st' ∧ Moves st st' ∧
      st'.frame.previous = s.function.current := by
  obtain ⟨st', hst, hat, hm, hp⟩ := step_br hl.unlimited h.control hw.labels hi hw.body
  exact ⟨st', hst, h.move hm hat (congrArg List.flatten hs) hb, hm, hp⟩

theorem Stands.fork {b : Bool} {cond : Operand} {yes no : Bytes} (hl : Linked p pool image)
    (h : Stands p pool image F s slots env w st)
    (hi : s.function.body ++ [.condBr cond yes no] <+: F.body)
    (hc : st.frame.operand image cond = .ok (encode (.bool b)))
    (hw : Within F pool (s'.start (if b then yes else no)))
    (hs : s'.function.scopes = s.function.scopes)
    (hn : s.function.nextRegister ≤ s'.function.nextRegister) :
    ∃ st', step image st = .running st' ∧
      Stands p pool image F (s'.start (if b then yes else no)) slots env w st' ∧ Moves st st' := by
  obtain ⟨st', hst, hat, hm⟩ := step_condBr hl.unlimited h.control hw.labels hi hc hw.body
  exact ⟨st', hst, h.move hm hat (congrArg List.flatten hs) (h.below_le hn), hm⟩

theorem step_store {x a : Operand} {b : Nat} {old : Value} (hu : image.maxSteps ≤ 0)
    (h : At F s st.frame) (hi : s.function.body ++ [.store x a] <+: F.body)
    (hx : st.frame.operand image x = .ok v)
    (ha : st.frame.operand image a = .ok (.ptr (some b) 0)) (hc : Cell st.memory b false old) :
    ∃ st', step image st = .running st' ∧ At F (s.emit (.store x a)) st'.frame ∧
      st'.frame.registers = st.frame.registers ∧ st'.memory = st.memory.write b 0 v ∧
      st'.output = st.output ∧ st'.callers = st.callers ∧ st'.depth = st.depth := by
  refine ⟨(fetch st).perform (.store x a) (.write b 0 v), ?_, ?_, rfl, rfl, rfl, rfl, rfl⟩
  · have ht : (fetch st).memory.target (.ptr (some b) 0) = .ok (b, 0) := hc.target
    rw [step_eq hu h hi]
    simp only [State.execute, effect, fetch_operand, hx, ha, ht, bind, Except.bind]
    rfl
  · exact h.next rfl rfl hi rfl rfl rfl

end PZero.Refinement
