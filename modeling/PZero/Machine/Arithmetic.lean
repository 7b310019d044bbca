import PZero.Machine.Fault

namespace PZero.Machine

open IR

def integer (bits : Int) (n : Int) : Except Fault Value :=
  if isWidth bits then .ok (.ofInt bits n) else .error (.noWidth bits)

def onBits (op : BitVec 64 → BitVec 64 → BitVec 64) (x y : Int) : Int :=
  (op (BitVec.ofInt 64 x) (BitVec.ofInt 64 y)).toInt

/-- The least number of a width, which a division by minus one cannot negate. -/
def leastOf (bits : Int) : Int := canonical bits (bit (bits - 1)).toInt

def divide (x y : Value) : Except Fault Value :=
  if y.number = 0 then .error .divisionByZero
  else if y.number = -1 ∧ x.number = leastOf x.width then .error .divisionOverflow
  else .ok (.ofInt x.width (x.number.tdiv y.number))

/-- The result of an operator has the width of its left operand. Floats are computed in single
precision. -/
def binary (op : BinOp) (x y : Value) : Except Fault Value :=
  match op with
  | .add => .ok (.ofInt x.width (x.number + y.number))
  | .sub => .ok (.ofInt x.width (x.number - y.number))
  | .mul => .ok (.ofInt x.width (x.number * y.number))
  | .sdiv => divide x y
  | .and => .ok (.ofInt x.width (onBits (· &&& ·) x.number y.number))
  | .or => .ok (.ofInt x.width (onBits (· ||| ·) x.number y.number))
  | .xor => .ok (.ofInt x.width (onBits (· ^^^ ·) x.number y.number))
  | .fadd => .ok (.float (Binary.add x.pattern y.pattern))
  | .fsub => .ok (.float (Binary.sub x.pattern y.pattern))
  | .fmul => .ok (.float (Binary.mul x.pattern y.pattern))
  | .fdiv => .ok (.float (Binary.div x.pattern y.pattern))
  | .other name => .error (.unknownOperator (.other name))

def compareInts (pred : IntPred) (x y : Value) : Except Fault Bool :=
  match pred with
  | .eq => .ok (x.number = y.number)
  | .ne => .ok (x.number ≠ y.number)
  | .slt => .ok (x.number < y.number)
  | .sle => .ok (x.number ≤ y.number)
  | .sgt => .ok (x.number > y.number)
  | .sge => .ok (x.number ≥ y.number)
  | .ult => .ok (x.unsigned < y.unsigned)
  | .ule => .ok (x.unsigned ≤ y.unsigned)
  | .ugt => .ok (x.unsigned > y.unsigned)
  | .uge => .ok (x.unsigned ≥ y.unsigned)
  | .other code => .error (.unknownIntPred (.other code))

def compareFloats (pred : FloatPred) (x y : UInt64) : Except Fault Bool :=
  let unordered := Binary.isNan x || Binary.isNan y
  let a := Binary.order x
  let b := Binary.order y
  match pred with
  | .false_ => .ok false
  | .true_ => .ok true
  | .ord => .ok !unordered
  | .uno => .ok unordered
  | .oeq => .ok (!unordered && a = b)
  | .one => .ok (!unordered && a ≠ b)
  | .olt => .ok (!unordered && a < b)
  | .ole => .ok (!unordered && a ≤ b)
  | .ogt => .ok (!unordered && a > b)
  | .oge => .ok (!unordered && a ≥ b)
  | .ueq => .ok (unordered || a = b)
  | .une => .ok (unordered || a ≠ b)
  | .ult => .ok (unordered || a < b)
  | .ule => .ok (unordered || a ≤ b)
  | .ugt => .ok (unordered || a > b)
  | .uge => .ok (unordered || a ≥ b)
  | .other code => .error (.unknownFloatPred (.other code))

def widen (v : Value) (target : Ty) : Except Fault Value :=
  match target with
  | .int bits => integer bits v.unsigned
  | other => .error (.zextTarget other)

def follow (offset : Int) : List Int → Ty → Except Fault Int
  | [], _ => .ok offset
  | i :: rest, .array _ elem => follow (word (offset + i * sizeOf elem)) rest elem
  | i :: rest, .struct _ elems =>
    match i with
    | .ofNat n =>
      match elems[n]? with
      | some t => follow (word (offset + sizeOfAll (elems.take n))) rest t
      | none => .error (.fieldOutOfRange i)
    | .negSucc _ => .error (.fieldOutOfRange i)
  | _ :: _, t => .error (.notIndexable t)

/-- The address behind a path of indices: the first one steps over whole elements, the others go
into one. -/
def address (base : Value) (elem : Ty) (indices : List Int) : Except Fault Value :=
  match base, indices with
  | .ptr block offset, [] => .ok (.ptr block offset)
  | .ptr block offset, first :: rest => do
    let offset ← follow (word (offset + first * sizeOf elem)) rest elem
    return .ptr block offset
  | v, _ => .error (.indexOnValue v)

end PZero.Machine
