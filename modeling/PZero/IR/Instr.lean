import PZero.IR.Operand

namespace PZero.IR

/-- An operator the machine does not have keeps its name. -/
inductive BinOp
  | add | sub | mul | sdiv | fadd | fsub | fmul | fdiv | and | or | xor
  | other (name : Bytes)
  deriving Repr, DecidableEq, Inhabited

namespace BinOp

def known : List BinOp :=
  [.add, .sub, .mul, .sdiv, .fadd, .fsub, .fmul, .fdiv, .and, .or, .xor]

def name : BinOp → Bytes
  | .add => ascii "add"
  | .sub => ascii "sub"
  | .mul => ascii "mul"
  | .sdiv => ascii "sdiv"
  | .fadd => ascii "fadd"
  | .fsub => ascii "fsub"
  | .fmul => ascii "fmul"
  | .fdiv => ascii "fdiv"
  | .and => ascii "and"
  | .or => ascii "or"
  | .xor => ascii "xor"
  | .other name => name

def ofName (text : Bytes) : BinOp := (known.find? (·.name = text)).getD (.other text)

end BinOp

inductive IntPred
  | eq | ne | sge | sgt | sle | slt | uge | ugt | ule | ult
  | other (code : UInt8)
  deriving Repr, DecidableEq, Inhabited

namespace IntPred

def known : List IntPred := [.eq, .ne, .sge, .sgt, .sle, .slt, .uge, .ugt, .ule, .ult]

def name : IntPred → Bytes
  | .eq => ascii "eq"
  | .ne => ascii "ne"
  | .sge => ascii "sge"
  | .sgt => ascii "sgt"
  | .sle => ascii "sle"
  | .slt => ascii "slt"
  | .uge => ascii "uge"
  | .ugt => ascii "ugt"
  | .ule => ascii "ule"
  | .ult => ascii "ult"
  | .other code => ascii "IPred(" ++ Bytes.ofNat code.toNat ++ ascii ")"

def ofName? (text : Bytes) : Option IntPred := known.find? (·.name = text)

def ofCode (code : UInt8) : IntPred := known[code.toNat]?.getD (.other code)

end IntPred

/-- Comparisons of floats. The ordered ones are false and the unordered ones true when an operand
is not a number. -/
inductive FloatPred
  | false_ | oeq | oge | ogt | ole | olt | one | ord | true_ | ueq | uge | ugt | ule | ult | une
  | uno
  | other (code : UInt8)
  deriving Repr, DecidableEq, Inhabited

namespace FloatPred

def known : List FloatPred :=
  [.false_, .oeq, .oge, .ogt, .ole, .olt, .one, .ord, .true_, .ueq, .uge, .ugt, .ule, .ult, .une,
    .uno]

def name : FloatPred → Bytes
  | .false_ => ascii "false"
  | .oeq => ascii "oeq"
  | .oge => ascii "oge"
  | .ogt => ascii "ogt"
  | .ole => ascii "ole"
  | .olt => ascii "olt"
  | .one => ascii "one"
  | .ord => ascii "ord"
  | .true_ => ascii "true"
  | .ueq => ascii "ueq"
  | .uge => ascii "uge"
  | .ugt => ascii "ugt"
  | .ule => ascii "ule"
  | .ult => ascii "ult"
  | .une => ascii "une"
  | .uno => ascii "uno"
  | .other code => ascii "FPred(" ++ Bytes.ofNat code.toNat ++ ascii ")"

def ofName? (text : Bytes) : Option FloatPred := known.find? (·.name = text)

def ofCode (code : UInt8) : FloatPred := known[code.toNat]?.getD (.other code)

end FloatPred

structure Incoming where
  value : Operand
  label : Bytes
  deriving Repr, Inhabited

inductive Instr
  | bin (dst : Register) (op : BinOp) (x y : Operand)
  | icmp (dst : Register) (pred : IntPred) (x y : Operand)
  | fcmp (dst : Register) (pred : FloatPred) (x y : Operand)
  | alloca (dst : Register) (elem : Ty)
  | load (dst : Register) (elem : Ty) (addr : Operand)
  | store (value addr : Operand)
  | br (target : Bytes)
  | condBr (cond : Operand) (then_ else_ : Bytes)
  | label (name : Bytes)
  | phi (dst : Register) (incoming : List Incoming)
  | ret (value : Operand)
  | retVoid
  | call (dst : Register) (result : Ty) (callee : Bytes) (args : List Operand)
  | callVoid (callee : Bytes) (args : List Operand)
  | zext (dst : Register) (value : Operand) (target : Ty)
  | gep (dst : Register) (inBounds : Bool) (elem : Ty) (addr : Operand) (indices : List Operand)
  deriving Repr, Inhabited

namespace Instr

def result? : Instr → Option Register
  | .bin dst _ _ _ | .icmp dst _ _ _ | .fcmp dst _ _ _ | .alloca dst _ | .load dst _ _ | .phi dst _
  | .call dst _ _ _ | .zext dst _ _ | .gep dst _ _ _ _ => some dst
  | .store _ _ | .br _ | .condBr _ _ _ | .label _ | .ret _ | .retVoid | .callVoid _ _ => none

def isTerminator : Instr → Bool
  | .br _ | .condBr _ _ _ | .ret _ | .retVoid => true
  | _ => false

def isLabel : Instr → Bool
  | .label _ => true
  | _ => false

def labelRef (name : Bytes) : Bytes := ascii "label " ++ Symbol.inFunction name

def args (xs : List Operand) : Bytes := ascii "(" ++ commas (xs.map Operand.text) ++ ascii ")"

def defining (dst : Register) (what : Bytes) : Bytes := dst.bare ++ ascii " = " ++ what

def ofTwo (op : Bytes) (x y : Operand) : Bytes :=
  op ++ ascii " " ++ x.text ++ ascii ", " ++ y.bare

def text : Instr → Bytes
  | .bin dst op x y => defining dst (ofTwo op.name x y)
  | .icmp dst pred x y => defining dst (ascii "icmp " ++ ofTwo pred.name x y)
  | .fcmp dst pred x y => defining dst (ascii "fcmp " ++ ofTwo pred.name x y)
  | .alloca dst elem => defining dst (ascii "alloca " ++ elem.text)
  | .load dst elem addr => defining dst (ascii "load " ++ elem.text ++ ascii ", " ++ addr.text)
  | .store value addr => ascii "store " ++ value.text ++ ascii ", " ++ addr.text
  | .br target => ascii "br " ++ labelRef target
  | .condBr cond then_ else_ =>
    ascii "br " ++ commas [cond.text, labelRef then_, labelRef else_]
  | .label name => name ++ ascii ":"
  | .phi dst incoming =>
    let choices := incoming.map fun i ↦
      ascii "[" ++ i.value.bare ++ ascii ", " ++ Symbol.inFunction i.label ++ ascii "]"
    defining dst (ascii "phi " ++ dst.type.text ++ ascii " " ++ commas choices)
  | .ret value => ascii "ret " ++ value.text
  | .retVoid => ascii "ret void"
  | .call dst result callee xs =>
    defining dst
      (ascii "call ccc " ++ result.text ++ ascii " " ++ Symbol.atModule callee ++ args xs)
  | .callVoid callee xs => ascii "call ccc void " ++ Symbol.atModule callee ++ args xs
  | .zext dst value target =>
    defining dst (ascii "zext " ++ value.text ++ ascii " to " ++ target.text)
  | .gep dst inBounds elem addr indices =>
    defining dst (ascii "getelementptr " ++ (if inBounds then ascii "inbounds " else [])
      ++ commas (elem.text :: addr.text :: indices.map Operand.text))

def isWhole : Instr → Bool
  | .bin _ _ x y | .icmp _ _ x y | .fcmp _ _ x y => x.isWhole && y.isBareWhole
  | .alloca _ elem => elem.isWhole
  | .load _ elem addr => elem.isWhole && addr.isWhole
  | .store value addr => value.isWhole && addr.isWhole
  | .br _ | .label _ | .retVoid => true
  | .condBr cond _ _ => cond.isWhole
  | .phi dst incoming => dst.type.isWhole && incoming.all (·.value.isBareWhole)
  | .ret value => value.isWhole
  | .call _ result _ xs => result.isWhole && xs.all Operand.isWhole
  | .callVoid _ xs => xs.all Operand.isWhole
  | .zext _ value target => value.isWhole && target.isWhole
  | .gep _ _ elem addr indices => elem.isWhole && addr.isWhole && indices.all Operand.isWhole

end Instr

end PZero.IR
