import PZero.Library
import PZero.Machine.Arithmetic
import PZero.Machine.Memory

namespace PZero.Machine

open IR

/-- A loaded module. A limit on steps that is not positive is none. -/
structure Image where
  module : Module
  globals : List (Bytes × Nat)
  maxSteps : Int64
  maxDepth : Int
  deriving Repr

namespace Image

/-- A function of the module; of several with one name the last one counts. -/
def function? (image : Image) (name : Bytes) : Option Function :=
  image.module.functions.reverse.find? (·.name = name)

def hasExternal (image : Image) (name : Bytes) : Bool :=
  image.module.externals.any (·.name = name)

mutual

def constant (image : Image) : Constant → Except Fault Value
  | .int bits value => integer bits value
  | .float .double bits => .ok (.float bits)
  | .float _ bits => .ok (.float (Binary.toSingle bits))
  | .global name _ =>
    match image.globals.lookup name with
    | some block => .ok (.ptr (some block) 0)
    | none => .error (.undefinedGlobal name)
  | .gep _ elem addr indices => do
    let base ← image.constant addr
    let indices ← image.indices indices
    address base elem indices
  | .zext value target => do
    let v ← image.constant value
    widen v target
  | .array elem values => .error (.constantRefused (.array elem values))

def indices (image : Image) : List Constant → Except Fault (List Int)
  | [] => .ok []
  | c :: cs => do
    let v ← image.constant c
    let rest ← image.indices cs
    return v.number :: rest

end

end Image

abbrev Registers := List (Bytes × Value)

def Registers.set (name : Bytes) (value : Value) : Registers → Registers
  | [] => [(name, value)]
  | (other, held) :: rest =>
    if other = name then (name, value) :: rest
    else (other, held) :: set name value rest

structure Frame where
  function : Function
  ahead : List Instr
  registers : Registers
  previous : Bytes
  current : Bytes
  deriving Repr, Inhabited

namespace Frame

def enter (f : Function) (args : List Value) : Frame :=
  ⟨f, f.body, (f.params.zip args).foldl (fun rs (p, v) ↦ Registers.set p.name v rs) [], [], []⟩

/-- The instructions after a label; of several labels with one name the last one counts. -/
def after? (name : Bytes) : List Instr → Option (List Instr)
  | [] => none
  | i :: rest =>
    match after? name rest with
    | some found => some found
    | none =>
      match i with
      | .label other => if other = name then some rest else none
      | _ => none

def jump (frame : Frame) (target : Bytes) : Except Fault Frame :=
  match after? target frame.function.body with
  | some ahead => .ok { frame with ahead, previous := frame.current, current := target }
  | none => .error (.unknownLabel target)

def pass (frame : Frame) (label : Bytes) : Frame :=
  { frame with previous := frame.current, current := label }

def operand (image : Image) (frame : Frame) : Operand → Except Fault Value
  | .reg r =>
    match frame.registers.lookup r.name with
    | some v => .ok v
    | none => .error (.undefinedValue r.name)
  | .const c => image.constant c

def operands (image : Image) (frame : Frame) : List Operand → Except Fault (List Value)
  | [] => .ok []
  | x :: xs => do
    let v ← frame.operand image x
    let vs ← frame.operands image xs
    return v :: vs

def incoming (image : Image) (frame : Frame) : List Incoming → Except Fault Value
  | [] => .error (.noIncoming frame.previous)
  | i :: rest =>
    if i.label = frame.previous then frame.operand image i.value
    else frame.incoming image rest

def finish (frame : Frame) (i : Instr) (value : Value) : Frame :=
  match i.result? with
  | some dst => { frame with registers := Registers.set dst.name value frame.registers }
  | none => frame

end Frame

/-- What an instruction that neither transfers control nor calls does: it gives a value, it sets up
a block and gives its address, or it writes a cell. -/
inductive Effect
  | value (v : Value)
  | allocate (block : Block)
  | write (block cell : Nat) (v : Value)
  deriving Repr

def Effect.apply (memory : Memory) : Effect → Value × Memory
  | .value v => (v, memory)
  | .allocate block => memory.allocate block
  | .write block cell v => (.nothing, memory.write block cell v)

def effect (image : Image) (memory : Memory) (frame : Frame) : Instr → Except Fault Effect
  | .bin _ op x y => do
    let a ← frame.operand image x
    let b ← frame.operand image y
    let v ← binary op a b
    return .value v
  | .icmp _ pred x y => do
    let a ← frame.operand image x
    let b ← frame.operand image y
    let holds ← compareInts pred a b
    return .value (.ofBool holds)
  | .fcmp _ pred x y => do
    let a ← frame.operand image x
    let b ← frame.operand image y
    let holds ← compareFloats pred a.pattern b.pattern
    return .value (.ofBool holds)
  | .alloca dst elem => do
    let block ← Block.fresh dst.bare false elem
    return .allocate block
  | .load _ _ addr => do
    let p ← frame.operand image addr
    let v ← memory.load p
    return .value v
  | .store value addr => do
    let v ← frame.operand image value
    let p ← frame.operand image addr
    let (block, cell) ← memory.target p
    return .write block cell v
  | .phi _ incoming => do
    let v ← frame.incoming image incoming
    return .value v
  | .zext _ value target => do
    let v ← frame.operand image value
    let w ← widen v target
    return .value w
  | .gep _ _ elem addr indices => do
    let base ← frame.operand image addr
    let indices ← frame.operands image indices
    let v ← address base elem (indices.map Value.number)
    return .value v
  | .br _ | .condBr _ _ _ | .label _ | .ret _ | .retVoid | .call _ _ _ _ | .callVoid _ _ =>
    .ok (.value .nothing)

def library (memory : Memory) (name : Bytes) (args : List Value) : Except Fault Bytes :=
  match args with
  | [] =>
    if name = Library.printLn then .ok (ascii "\n")
    else .error (.argumentCount name 1 0)
  | [v] =>
    if name = Library.printLn then .error (.argumentCount name 0 1)
    else if name = Library.printBool then
      .ok (ascii (if v.number = 1 then "true" else "false"))
    else if name = Library.printInt then .ok (Bytes.ofInt (v.number.bmod 0x100000000))
    else if name = Library.printFloat then .ok (Binary.fixedSix v.pattern)
    else if name = Library.printString then memory.readString v
    else .error (.notImplemented name)
  | args =>
    .error (.argumentCount name (if name = Library.printLn then 0 else 1) args.length)

/-- A run in progress. `callers` are the frames below the running one, the innermost first, each
with the call it waits for. `steps` counts the instructions taken under a bound, `depth` the
functions that were called and not left. -/
structure State where
  memory : Memory
  output : Array UInt8
  steps : Int64
  depth : Int
  frame : Frame
  callers : List (Frame × Instr)
  deriving Repr

namespace State

def unwind (s : State) : State := { s with depth := s.depth - (s.callers.length + 1) }

def trace (s : State) : List Context :=
  s.callers.reverse.flatMap (fun (frame, call) ↦ [.function frame.function.name, .instr call])
    ++ [.function s.frame.function.name]

end State

inductive Next
  | running (s : State)
  | returned (value : Value) (s : State)
  | failed (failure : Failure) (s : State)

def State.fail (s : State) (fault : Fault) : Next := .failed ⟨s.trace, fault⟩ s.unwind

def State.failAt (s : State) (i : Instr) (fault : Fault) : Next :=
  .failed ⟨s.trace ++ [.instr i], fault⟩ s.unwind

def State.leave (s : State) (value : Value) : Next :=
  match s.callers with
  | [] => .returned value { s with depth := s.depth - 1 }
  | (frame, call) :: rest =>
    .running { s with depth := s.depth - 1, frame := frame.finish call value, callers := rest }

def State.call (image : Image) (s : State) (i : Instr) (callee : Bytes) (args : List Value) :
    Next :=
  match image.function? callee with
  | some f =>
    if args.length ≠ f.params.length then
      s.failAt i (.argumentCount callee f.params.length args.length)
    else if s.depth ≥ image.maxDepth then s.failAt i (.depthLimit image.maxDepth)
    else
      .running { s with
        depth := s.depth + 1
        frame := .enter f args
        callers := (s.frame, i) :: s.callers }
  | none =>
    if image.hasExternal callee then
      match library s.memory callee args with
      | .ok text =>
        .running { s with output := s.output ++ text, frame := s.frame.finish i .nothing }
      | .error fault => s.failAt i fault
    else s.failAt i (.undefinedFunction callee)

def State.perform (i : Instr) (e : Effect) : State → State
  | ⟨memory, output, steps, depth, frame, callers⟩ =>
    let (v, memory) := e.apply memory
    ⟨memory, output, steps, depth, frame.finish i v, callers⟩

def State.execute (image : Image) (s : State) (i : Instr) : Next :=
  match i with
  | .label name => .running { s with frame := s.frame.pass name }
  | .br target =>
    match s.frame.jump target with
    | .ok frame => .running { s with frame }
    | .error fault => s.fail fault
  | .condBr cond then_ else_ =>
    match s.frame.operand image cond with
    | .ok c =>
      match s.frame.jump (if c.number ≠ 0 then then_ else else_) with
      | .ok frame => .running { s with frame }
      | .error fault => s.fail fault
    | .error fault => s.fail fault
  | .ret value =>
    match s.frame.operand image value with
    | .ok v => s.leave v
    | .error fault => s.fail fault
  | .retVoid => s.leave .nothing
  | .call _ _ callee args | .callVoid callee args =>
    match s.frame.operands image args with
    | .ok vs => s.call image i callee vs
    | .error fault => s.failAt i fault
  | i =>
    match effect image s.memory s.frame i with
    | .ok e => .running (s.perform i e)
    | .error fault => s.failAt i fault

def Image.count (image : Image) (steps : Int64) : Int64 :=
  if 0 < image.maxSteps then steps + 1 else steps

def Image.exceeds (image : Image) (steps : Int64) : Bool :=
  0 < image.maxSteps ∧ image.maxSteps < steps

def State.counted (image : Image) (s : State) : State := { s with steps := image.count s.steps }

/-- One step: the next instruction, which is counted before the bound is looked at. -/
def step (image : Image) (s : State) : Next :=
  match s.frame.ahead with
  | [] => s.fail .noTerminator
  | i :: ahead =>
    if image.exceeds (s.counted image).steps then
      (s.counted image).fail (.stepLimit image.maxSteps.toInt)
    else State.execute image { s.counted image with frame := { s.frame with ahead } } i

end PZero.Machine
