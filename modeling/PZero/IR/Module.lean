import PZero.IR.Instr

namespace PZero.IR

structure External where
  name : Bytes
  args : List Ty
  result : Ty
  deriving Repr, Inhabited

structure Global where
  name : Bytes
  type : Ty
  isConst : Bool
  value : Constant
  deriving Repr, Inhabited

structure Function where
  name : Bytes
  params : List Register
  result : Ty
  body : List Instr
  deriving Repr, Inhabited

structure Module where
  id : Bytes
  externals : List External
  globals : List Global
  functions : List Function
  deriving Repr, Inhabited

namespace External

def text (e : External) : Bytes :=
  ascii "\ndeclare external ccc " ++ e.result.text ++ ascii " " ++ Symbol.atModule e.name
    ++ ascii "(" ++ commas (e.args.map Ty.text) ++ ascii ")\n"

def isWhole (e : External) : Bool := e.result.isWhole && e.args.all Ty.isWhole

end External

namespace Global

def ref (g : Global) : Constant := .global g.name (.ptr g.type)

def text (g : Global) : Bytes :=
  Symbol.atModule g.name
    ++ ascii (if g.isConst then " = unnamed_addr constant " else " = global ")
    ++ g.value.text ++ ascii "\n"

end Global

namespace Function

/-- Labels stand at the margin and everything else is indented. -/
def line (i : Instr) : Bytes :=
  (if i.isLabel then [] else ascii "  ") ++ i.text ++ ascii "\n"

def text (f : Function) : Bytes :=
  ascii "\ndefine external ccc " ++ f.result.text ++ ascii " " ++ Symbol.atModule f.name
    ++ ascii "(" ++ commas (f.params.map Register.text) ++ ascii ") \x7b\n"
    ++ f.body.flatMap line ++ ascii "\x7d\n"

def isWhole (f : Function) : Bool :=
  f.result.isWhole && f.params.all (·.type.isWhole) && f.body.all Instr.isWhole

end Function

namespace Module

def text (m : Module) : Bytes :=
  ascii "; ModuleID = '" ++ m.id ++ ascii "'\n"
    ++ m.externals.flatMap External.text
    ++ (if m.globals.isEmpty then [] else ascii "\n")
    ++ m.globals.flatMap Global.text
    ++ m.functions.flatMap Function.text

def isWhole (m : Module) : Bool :=
  m.externals.all External.isWhole && m.globals.all (·.value.isWhole)
    && m.functions.all Function.isWhole

end Module

end PZero.IR
