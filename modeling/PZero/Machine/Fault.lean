import PZero.IR.Module
import PZero.Machine.Value

namespace PZero.Machine

open IR

inductive Fault
  | divisionByZero
  | divisionOverflow
  | stepLimit (limit : Int)
  | depthLimit (limit : Int)
  | noAddress (value : Value)
  | outside (offset : Int) (block : Bytes)
  | storeToConstant (block : Bytes)
  | undefinedValue (name : Bytes)
  | undefinedGlobal (name : Bytes)
  | undefinedFunction (name : Bytes)
  | unknownLabel (name : Bytes)
  | noIncoming (label : Bytes)
  | noTerminator
  | argumentCount (callee : Bytes) (wanted got : Nat)
  | notImplemented (callee : Bytes)
  | unknownOperator (op : BinOp)
  | unknownIntPred (pred : IntPred)
  | unknownFloatPred (pred : FloatPred)
  | zextTarget (type : Ty)
  | constantRefused (value : Constant)
  | noWidth (bits : Int)
  | indexOnValue (value : Value)
  | fieldOutOfRange (index : Int)
  | notIndexable (type : Ty)
  | initialiserSize (scalars cells : Nat)
  | noMain
  | mainTakesParameters
  | exitStatus (status : Int)
  deriving Repr

namespace Fault

def isTrap : Fault → Bool
  | .divisionByZero | .divisionOverflow | .stepLimit _ | .depthLimit _ | .noAddress _
  | .outside _ _ | .storeToConstant _ => true
  | _ => false

def message : Fault → Bytes
  | .divisionByZero => ascii "trap: integer division by zero"
  | .divisionOverflow => ascii "trap: integer division overflow"
  | .stepLimit limit => ascii "trap: step limit " ++ Bytes.ofInt limit ++ ascii " exceeded"
  | .depthLimit limit => ascii "trap: call depth exceeds " ++ Bytes.ofInt limit
  | .noAddress value => ascii "trap: access through null or non-pointer " ++ value.text
  | .outside offset block =>
    ascii "trap: offset " ++ Bytes.ofInt offset ++ ascii " outside " ++ block
  | .storeToConstant block => ascii "trap: store to constant " ++ block
  | .undefinedValue name => ascii "use of undefined value " ++ Symbol.inFunction name
  | .undefinedGlobal name => ascii "reference to undefined global " ++ Symbol.atModule name
  | .undefinedFunction name => ascii "call to undefined function @" ++ name
  | .unknownLabel name => ascii "branch to unknown label %" ++ name
  | .noIncoming label => ascii "no incoming value for predecessor %" ++ label
  | .noTerminator => ascii "control reaches end of function without a terminator"
  | .argumentCount callee wanted got =>
    ascii "@" ++ callee ++ ascii " takes " ++ Bytes.ofNat wanted ++ ascii " arguments, got "
      ++ Bytes.ofNat got
  | .notImplemented callee => ascii "no runtime implementation of @" ++ callee
  | .unknownOperator op => ascii "unsupported operator " ++ op.name
  | .unknownIntPred pred => ascii "unsupported icmp predicate " ++ pred.name
  | .unknownFloatPred pred => ascii "unsupported fcmp predicate " ++ pred.name
  | .zextTarget type => ascii "zext to " ++ type.shown
  | .constantRefused value => ascii "unsupported constant " ++ value.text
  | .noWidth bits => ascii "no integers of width " ++ Bytes.ofInt bits
  | .indexOnValue value => ascii "getelementptr on non-pointer " ++ value.text
  | .fieldOutOfRange index => ascii "struct index " ++ Bytes.ofInt index ++ ascii " out of range"
  | .notIndexable type => ascii "cannot index into " ++ type.shown
  | .initialiserSize scalars cells =>
    ascii "initialiser has " ++ Bytes.ofNat scalars ++ ascii " scalars, type has "
      ++ Bytes.ofNat cells
  | .noMain => ascii "missing main"
  | .mainTakesParameters => ascii "main must have no parameters"
  | .exitStatus status => ascii "main returned " ++ Bytes.ofInt status

/-- Whether the machine survives to report the fault. A width without integers ends it, and so does
a message that needs a missing type. -/
def isReported : Fault → Bool
  | .constantRefused value => value.isWhole
  | .noWidth _ => false
  | _ => true

end Fault

inductive Context
  | global (name : Bytes)
  | function (name : Bytes)
  | instr (i : Instr)
  deriving Repr

def Context.text : Context → Bytes
  | .global name => ascii "global @" ++ name
  | .function name => ascii "in @" ++ name
  | .instr i => i.text

structure Failure where
  trace : List Context
  fault : Fault
  deriving Repr

namespace Failure

def message (f : Failure) : Bytes :=
  f.trace.flatMap (fun c ↦ c.text ++ ascii ": ") ++ f.fault.message

def isReported (f : Failure) : Bool :=
  f.fault.isReported && f.trace.all fun
    | .instr i => i.isWhole
    | _ => true

end Failure

end PZero.Machine
