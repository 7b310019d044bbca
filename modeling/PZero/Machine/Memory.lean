import PZero.Machine.Fault

namespace PZero.Machine

structure Block where
  name : Bytes
  isConst : Bool
  cells : Array Value
  deriving Repr, Inhabited

/-- A block of zeros for a type, every integer in it of a width that has integers. -/
def Block.fresh (name : Bytes) (isConst : Bool) (type : IR.Ty) : Except Fault Block :=
  let cells := layout type
  match cells.find? fun v ↦ !isWidth v.width with
  | some v => .error (.noWidth v.width)
  | none => .ok ⟨name, isConst, cells.toArray⟩

abbrev Memory := Array Block

namespace Memory

def locate (m : Memory) (address : Value) : Except Fault (Nat × Block × Nat) :=
  match address with
  | .ptr (some b) offset =>
    match m[b]? with
    | some block =>
      if 0 ≤ offset ∧ offset < block.cells.size then .ok (b, block, offset.toNat)
      else .error (.outside offset block.name)
    | none => .error (.noAddress address)
  | _ => .error (.noAddress address)

def load (m : Memory) (address : Value) : Except Fault Value := do
  let (_, block, cell) ← m.locate address
  return block.cells.getD cell default

def target (m : Memory) (address : Value) : Except Fault (Nat × Nat) := do
  let (b, block, cell) ← m.locate address
  if block.isConst then throw (.storeToConstant block.name)
  return (b, cell)

def write (m : Memory) (b cell : Nat) (value : Value) : Memory :=
  m.modify b fun block ↦ { block with cells := block.cells.setIfInBounds cell value }

def allocate (m : Memory) (block : Block) : Value × Memory :=
  (.ptr (some m.size) 0, m.push block)

def readString (m : Memory) (address : Value) : Except Fault Bytes := do
  let (_, block, cell) ← m.locate address
  let tail := block.cells.toList.drop cell
  let text := tail.takeWhile (·.number ≠ 0)
  if text.length = tail.length then throw (.outside block.cells.size block.name)
  return text.map fun v ↦ UInt8.ofNat (v.number % 256).toNat

end Memory

end PZero.Machine
