import PZero.Machine.Step

namespace PZero.Machine

open IR

/-- Bounds of a run. Steps are unbounded unless their bound is positive; a depth of zero stands for
the usual bound. -/
structure Limits where
  maxSteps : Int64
  maxDepth : Int
  deriving Repr

/-- Of a whole number that is given as a limit the word at its low end counts. -/
instance coeInt64 : Coe Int Int64 := ⟨Int64.ofInt⟩

def usualDepth : Int := 10000

structure Session where
  image : Image
  memory : Memory
  steps : Int64
  depth : Int
  deriving Repr

/-- Names of globals and their blocks; of several with one name the last one counts. -/
def globalBlocks (globals : List Global) : List (Bytes × Nat) :=
  (globals.map (·.name)).zipIdx.reverse

def globalBlock (g : Global) : Except Failure Block :=
  (Block.fresh (ascii "@" ++ g.name) g.isConst g.type).mapError fun fault ↦
    ⟨[.global g.name], fault⟩

mutual

def flatten (image : Image) : Constant → Except Fault (List Value)
  | .array _ values => flattenAll image values
  | c => (image.constant c).map fun v ↦ [v]

def flattenAll (image : Image) : List Constant → Except Fault (List Value)
  | [] => .ok []
  | c :: cs => do
    let vs ← flatten image c
    let rest ← flattenAll image cs
    return vs ++ rest

end

def initialise (image : Image) (memory : Memory) (g : Global) : Except Failure Memory :=
  let fail (fault : Fault) : Except Failure Memory := .error ⟨[.global g.name], fault⟩
  match flatten image g.value with
  | .error fault => fail fault
  | .ok values =>
    match image.globals.lookup g.name with
    | none => .ok memory
    | some b =>
      let size := (memory[b]?.map (·.cells.size)).getD 0
      if values.length ≠ size then fail (.initialiserSize values.length size)
      else .ok (memory.modify b fun block ↦ { block with cells := values.toArray })

namespace Session

/-- Loads a module. Every global has its block before any is given its value, so that a value may
refer to any global. -/
def load (m : Module) (limits : Limits) : Except Failure Session := do
  let image : Image :=
    { module := m
      globals := globalBlocks m.globals
      maxSteps := limits.maxSteps
      maxDepth := if limits.maxDepth = 0 then usualDepth else limits.maxDepth }
  let blocks ← m.globals.mapM globalBlock
  let memory ← m.globals.foldlM (initialise image) blocks.toArray
  return ⟨image, memory, 0, 0⟩

end Session

structure Ended where
  status : Except Failure Int
  output : Bytes
  session : Session

def statusOf (v : Value) : Int := v.number.bmod 0x100000000

def State.session (image : Image) (s : State) : Session := ⟨image, s.memory, s.steps, s.depth⟩

/-- Steps until the run ends; nothing if it takes more than `fuel` steps. -/
def run (image : Image) : (fuel : Nat) → State → Option Ended
  | 0, _ => none
  | fuel + 1, s =>
    match step image s with
    | .running s => run image fuel s
    | .returned v s => some ⟨.ok (statusOf v), s.output.toList, s.session image⟩
    | .failed failure s => some ⟨.error failure, s.output.toList, s.session image⟩

namespace Session

def main (fuel : Nat) (session : Session) : Option Ended :=
  let fail (fault : Fault) : Option Ended := some ⟨.error ⟨[], fault⟩, [], session⟩
  match session.image.function? (ascii "main") with
  | none => fail .noMain
  | some f =>
    if f.params ≠ [] then fail .mainTakesParameters
    else if session.depth ≥ session.image.maxDepth then fail (.depthLimit session.image.maxDepth)
    else
      run session.image fuel
        ⟨session.memory, #[], session.steps, session.depth + 1, .enter f [], []⟩

end Session

def runOnce (fuel : Nat) (m : Module) : Option (Bytes × Option Failure) :=
  match Session.load m ⟨0, 0⟩ with
  | .error failure => some ([], some failure)
  | .ok session =>
    (session.main fuel).map fun ended ↦
      match ended.status with
      | .error failure => (ended.output, some failure)
      | .ok status => (ended.output, if status = 0 then none else some ⟨[], .exitStatus status⟩)

end PZero.Machine
