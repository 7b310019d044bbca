import PZero.Binary.Arithmetic
import PZero.Binary.Print
import PZero.IR.Instr

namespace PZero.Machine

/-- An integer has a width and is kept in signed form. A float is the bit pattern of a double. A
pointer is the number of a memory block and a cell in it; without a block it is null. -/
inductive Value
  | int (bits : Int) (value : Int)
  | float (bits : UInt64)
  | ptr (block : Option Nat) (offset : Int)
  deriving Repr, DecidableEq, Inhabited

def word (n : Int) : Int := n.bmod 0x10000000000000000

/-- The signed number that a width keeps of an integer. Its bits are shifted to the top of a word,
and the shift back fills in the sign. -/
def canonical (bits : Int) (n : Int) : Int :=
  let shift := min (64 - bits).toNat 64
  ((BitVec.ofInt 64 n <<< shift).sshiftRight shift).toInt

/-- A single bit of a word. Its place is read without a sign, and from 64 on there is none. -/
def bit (place : Int) : BitVec 64 := 1#64 <<< min (place % 0x10000000000000000).toNat 64

/-- Whether there are integers of a width. A width may be negative, and its distance below a word
must itself be a word. -/
def isWidth (bits : Int) : Bool := 64 - bits < 0x8000000000000000

namespace Value

def ofInt (bits : Int) (n : Int) : Value := .int bits (canonical bits n)

def ofBool (b : Bool) : Value := ofInt 1 (if b then 1 else 0)

def nothing : Value := .int 0 0

def number : Value → Int
  | .int _ n => n
  | _ => 0

def width : Value → Int
  | .int bits _ => bits
  | _ => 0

def pattern : Value → UInt64
  | .float bits => bits
  | _ => 0

/-- The number in a value, read without a sign: the bits of its word below its width. -/
def unsigned (v : Value) : Int := (BitVec.ofInt 64 v.number &&& (bit v.width - 1#64)).toNat

def text : Value → Bytes
  | .int bits n => ascii "i" ++ Bytes.ofInt bits ++ ascii " " ++ Bytes.ofInt n
  | .float bits => ascii "float " ++ Binary.shortest bits
  | .ptr _ _ => ascii "null"

def zero : IR.Ty → Value
  | .int bits => ofInt bits 0
  | .float _ => .float 0
  | _ => .ptr none 0

end Value

mutual

def sizeOf : IR.Ty → Int
  | .array size elem => word (size * sizeOf elem)
  | .struct _ elems => sizeOfAll elems
  | _ => 1

def sizeOfAll : List IR.Ty → Int
  | [] => 0
  | t :: ts => word (sizeOf t + sizeOfAll ts)

end

mutual

def layout : IR.Ty → List Value
  | .array size elem => (List.replicate size.toNat (layout elem)).flatten
  | .struct _ elems => layoutAll elems
  | t => [Value.zero t]

def layoutAll : List IR.Ty → List Value
  | [] => []
  | t :: ts => layout t ++ layoutAll ts

end

end PZero.Machine
