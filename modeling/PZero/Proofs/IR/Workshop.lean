import PZero.Proofs.IR.Names

namespace PZero.IR

/-- What appends an instruction with a result. -/
inductive Producer
  | bin (op : BinOp) (x y : Operand)
  | icmp (pred : IntPred) (x y : Operand)
  | fcmp (pred : FloatPred) (x y : Operand)
  | alloca (elem : Ty)
  | load (elem : Ty) (addr : Operand)
  | gep (inBounds : Bool) (elem : Ty) (addr : Operand) (indices : List Operand)
  | phi (incoming : List Incoming)
  | zext (value : Operand) (target : Ty)
  | call (result : Ty) (callee : Bytes) (args : List Operand)
  deriving Repr

def Producer.perform : Producer → Draft → Except DraftError (Register × Draft)
  | .bin op x y, d => .ok (d.bin op x y)
  | .icmp pred x y, d => .ok (d.icmp pred x y)
  | .fcmp pred x y, d => .ok (d.fcmp pred x y)
  | .alloca elem, d => .ok (d.alloca elem)
  | .load elem addr, d => .ok (d.load elem addr)
  | .gep inBounds elem addr indices, d => .ok (d.gep inBounds elem addr indices)
  | .phi incoming, d => d.phi incoming
  | .zext value target, d => .ok (d.zext value target)
  | .call result callee args, d => .ok (d.call result callee args)

/-- What appends an instruction without a result. -/
inductive Emitter
  | store (value addr : Operand)
  | callVoid (callee : Bytes) (args : List Operand)
  | br (target : Bytes)
  | condBr (cond : Operand) (then_ else_ : Bytes)
  | ret (value : Operand)
  | retVoid
  | label (name : Bytes)
  deriving Repr

def Emitter.perform : Emitter → Draft → Draft
  | .store value addr, d => d.emit (.store value addr)
  | .callVoid callee args, d => d.emit (.callVoid callee args)
  | .br target, d => d.emit (.br target)
  | .condBr cond then_ else_, d => d.emit (.condBr cond then_ else_)
  | .ret value, d => d.emit (.ret value)
  | .retVoid, d => d.emit .retVoid
  | .label name, d => d.startBlock name

/-- Work on one function. -/
inductive Work
  | produce (p : Producer)
  | emit (e : Emitter)
  | newLabel (stem : Bytes)
  | openScope
  | closeScope
  | bindName (name : Bytes) (x : Operand)
  | operand (name : Bytes)
  | finish
  deriving Repr

/-- Work on the module, or on the function of a number. -/
inductive Action
  | declareExternal (e : External)
  | declareGlobal (g : Global)
  | intern (text : Bytes)
  | declareFunction (name : Bytes) (params : List Register) (result : Ty)
  | workOn (i : Nat) (work : Work)
  deriving Repr

/-- What a piece of work answers. -/
inductive Reply
  | done
  | register (r : Register)
  | label (name : Bytes)
  | operand (x : Operand)
  | refused (e : DraftError)
  | noFunction
  deriving Repr

structure Workshop where
  module : ModuleDraft
  functions : List Draft
  deriving Repr

namespace Workshop

def new (id : Bytes) : Workshop := ⟨.new id, []⟩

def perform (m : ModuleDraft) (d : Draft) : Work → Reply × ModuleDraft × Draft
  | .produce p =>
    match p.perform d with
    | .ok (r, d') => (.register r, m, d')
    | .error e => (.refused e, m, d)
  | .emit e => (.done, m, e.perform d)
  | .newLabel stem => (.label (d.newLabel stem).1, m, (d.newLabel stem).2)
  | .openScope => (.done, m, d.openScope)
  | .closeScope =>
    match d.closeScope with
    | .ok d' => (.done, m, d')
    | .error e => (.refused e, m, d)
  | .bindName name x => (.done, m, d.bindName name x)
  | .operand name =>
    match d.operand name m with
    | .ok x => (.operand x, m, d)
    | .error e => (.refused e, m, d)
  | .finish =>
    match d.finish m with
    | .ok (m', d') => (.done, m', d')
    | .error e => (.refused e, m, d)

def step (w : Workshop) : Action → Reply × Workshop
  | .declareExternal e => (.done, { w with module := w.module.declareExternal e })
  | .declareGlobal g =>
    (.operand (.const g.ref), { w with module := w.module.declareGlobal g })
  | .intern text =>
    (.operand (.const (w.module.intern text).1), { w with module := (w.module.intern text).2 })
  | .declareFunction name params result =>
    (.done, { w with functions := w.functions ++ [.new name params result] })
  | .workOn i work =>
    match w.functions[i]? with
    | none => (.noFunction, w)
    | some d =>
      ((perform w.module d work).1,
        ⟨(perform w.module d work).2.1, w.functions.set i (perform w.module d work).2.2⟩)

def body (w : Workshop) (i : Nat) : List Instr := (w.functions[i]?.map Draft.body).getD []

/-- The number of the next register of a function; one that is not there yet starts at zero. -/
def nextRegister (w : Workshop) (i : Nat) : Nat :=
  (w.functions[i]?.map Draft.nextRegister).getD 0

def nextLabel (w : Workshop) (i : Nat) : Nat := (w.functions[i]?.map Draft.nextLabel).getD 1

end Workshop

/-- A piece of work with its reply, and how things stood before and after it. -/
structure Event where
  action : Action
  reply : Reply
  before : Workshop
  after : Workshop
  deriving Repr

def Workshop.run (w : Workshop) : List Action → List Event
  | [] => []
  | a :: rest => ⟨a, (w.step a).1, w, (w.step a).2⟩ :: (w.step a).2.run rest

namespace Event

/-- The register that work on a function returned. -/
def register? (i : Nat) (e : Event) : Option Register :=
  match e.action, e.reply with
  | .workOn j _, .register r => if i = j then some r else none
  | _, _ => none

def label? (i : Nat) (e : Event) : Option Bytes :=
  match e.action, e.reply with
  | .workOn j _, .label name => if i = j then some name else none
  | _, _ => none

/-- One instruction more in a function, and none in the others. -/
structure Appends (e : Event) (i : Nat) (instr : Instr) : Prop where
  body : e.after.body i = e.before.body i ++ [instr]
  others : ∀ j, j ≠ i → e.after.body j = e.before.body j

end Event

def registers (i : Nat) (log : List Event) : List Register := log.filterMap (Event.register? i)

def freshLabels (i : Nat) (log : List Event) : List Bytes := log.filterMap (Event.label? i)

/-- A producer appends an instruction that defines the next register and returns this register,
unless it is a merge of no values. -/
theorem Producer.perform_eq (p : Producer) (d : Draft) :
    (p = .phi [] ∧ p.perform d = .error .phiWithoutIncoming) ∨
      p ≠ .phi [] ∧ ∃ r d' instr, p.perform d = .ok (r, d') ∧ d'.body = d.body ++ [instr] ∧
        instr.result? = some r ∧ r.name = Bytes.ofNat d.nextRegister ∧
        d'.nextRegister = d.nextRegister + 1 ∧ d'.nextLabel = d.nextLabel := by
  cases p with
  | phi incoming =>
    cases incoming with
    | nil => exact .inl ⟨rfl, rfl⟩
    | cons first rest => exact .inr ⟨by simp, _, _, _, rfl, rfl, rfl, rfl, rfl, rfl⟩
  | _ => exact .inr ⟨by simp, _, _, _, rfl, rfl, rfl, rfl, rfl, rfl⟩

theorem Emitter.perform_eq (e : Emitter) (d : Draft) :
    ∃ instr, (e.perform d).body = d.body ++ [instr] ∧ instr.result? = none ∧
      (e.perform d).nextRegister = d.nextRegister ∧ (e.perform d).nextLabel = d.nextLabel := by
  cases e <;> exact ⟨_, rfl, rfl, rfl, rfl⟩

end PZero.IR
