import PZero.Binary.Format
import PZero.IR.Ty
import PZero.Symbol

namespace PZero.IR

structure Register where
  name : Bytes
  type : Ty
  deriving Repr, Inhabited

/-- A float is the bit pattern of a double; a global is its address, with a pointer type. -/
inductive Constant
  | int (bits : Int) (value : Int)
  | float (kind : FloatKind) (bits : UInt64)
  | global (name : Bytes) (type : Ty)
  | array (elem : Ty) (values : List Constant)
  | gep (inBounds : Bool) (elem : Ty) (addr : Constant) (indices : List Constant)
  | zext (value : Constant) (target : Ty)
  deriving Repr, Inhabited

inductive Operand
  | reg (register : Register)
  | const (value : Constant)
  deriving Repr, Inhabited

/-- The type that one index leads to. Only a constant selects a field of a structure. -/
def Ty.select? (index : Option Int) : Ty → Option Ty
  | .array _ elem => some elem
  | .struct _ elems =>
    match index with
    | some (.ofNat n) => elems[n]?
    | _ => none
  | _ => none

def Ty.walk? : List (Option Int) → Ty → Option Ty
  | [], t => some t
  | index :: rest, t => (t.select? index).bind (walk? rest)

/-- The type of an address computed from a pointer to `elem`. The first index steps over the
pointer, the others go into `elem`; a path that leads nowhere gives a pointer to nothing. -/
def Ty.addressed (elem : Ty) (indices : List (Option Int)) : Ty :=
  .ptr ((elem.walk? (indices.drop 1)).getD .void)

namespace Constant

def index? : Constant → Option Int
  | .int _ value => some value
  | _ => none

def type : Constant → Ty
  | .int bits _ => .int bits
  | .float kind _ => .float kind
  | .global _ type => type
  | .array elem values => .array values.length elem
  | .gep _ elem _ indices => elem.addressed (indices.map index?)
  | .zext _ target => target

/-- The bytes of an array that is written as a string: one of bytes that are all integers. -/
def stringBytes? (elem : Ty) (values : List Constant) : Option Bytes :=
  if elem.same (.int 8) && !values.isEmpty then
    values.mapM fun v ↦ v.index?.map fun n ↦ UInt8.ofNat (n % 256).toNat
  else none

/-- The digits of a float, those of its double. A single is rounded first. -/
def floatText (kind : FloatKind) (bits : UInt64) : Bytes :=
  let shown := if kind = .single then Binary.toSingle bits else bits
  ascii "0x" ++ Bytes.upperHexWidth 16 shown.toNat

def intText (bits value : Int) : Bytes :=
  if bits = 1 then if value = 0 then ascii "false" else ascii "true" else Bytes.ofInt value

def withType (type : Ty) (spelling : Bytes) : Bytes := type.text ++ ascii " " ++ spelling

mutual

def bare : Constant → Bytes
  | .int bits value => intText bits value
  | .float kind bits => floatText kind bits
  | .global name _ => Symbol.atModule name
  | .array elem values =>
    match stringBytes? elem values with
    | some text => ascii "c\"" ++ Symbol.escape text ++ ascii "\""
    | none => ascii "[" ++ commas (texts values) ++ ascii "]"
  | .gep inBounds elem addr indices =>
    ascii "getelementptr " ++ (if inBounds then ascii "inbounds " else [])
      ++ ascii "(" ++ commas (elem.text :: withType addr.type addr.bare :: texts indices)
      ++ ascii ")"
  | .zext value target =>
    ascii "zext (" ++ withType value.type value.bare ++ ascii " to " ++ target.text ++ ascii ")"

def texts : List Constant → List Bytes
  | [] => []
  | c :: cs => withType c.type c.bare :: texts cs

end

def text (c : Constant) : Bytes := withType c.type c.bare

mutual

def isBareWhole : Constant → Bool
  | .int _ _ | .float _ _ | .global _ _ => true
  | .array elem values => (elem.isMissing || elem.isWhole) && allWhole values
  | .gep _ elem addr indices =>
    elem.isWhole && (addr.type.isWhole && addr.isBareWhole) && allWhole indices
  | .zext value target => (value.type.isWhole && value.isBareWhole) && target.isWhole

def allWhole : List Constant → Bool
  | [] => true
  | c :: cs => (c.type.isWhole && c.isBareWhole) && allWhole cs

end

def isWhole (c : Constant) : Bool := c.type.isWhole && c.isBareWhole

def int32 (value : Int) : Constant := .int 32 value

def bool (value : Bool) : Constant := .int 1 (if value then 1 else 0)

def cString (text : Bytes) : Constant :=
  .array (.int 8) (text.map (fun b ↦ .int 8 b.toNat) ++ [.int 8 0])

end Constant

namespace Register

def bare (r : Register) : Bytes := Symbol.inFunction r.name

def text (r : Register) : Bytes := Constant.withType r.type r.bare

end Register

namespace Operand

def type : Operand → Ty
  | .reg r => r.type
  | .const c => c.type

def bare : Operand → Bytes
  | .reg r => r.bare
  | .const c => c.bare

def text (x : Operand) : Bytes := Constant.withType x.type x.bare

def isBareWhole : Operand → Bool
  | .reg _ => true
  | .const c => c.isBareWhole

def isWhole (x : Operand) : Bool := x.type.isWhole && x.isBareWhole

def index? : Operand → Option Int
  | .reg _ => none
  | .const c => c.index?

end Operand

end PZero.IR
