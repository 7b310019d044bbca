import PZero.IR.Draft
import PZero.Typed

namespace PZero.Lowering

open IR

inductive Cause
  | noProgram
  | missingDeclaration
  | missingStatement
  | missingExpression
  | missingInitializer
  | stringInitializer
  | noType (type : ValueType)
  | cannotNegate (type : ValueType)
  | cannotCompare (type : ValueType)
  | cannotPrint (type : ValueType)
  | operatorRefused (op : BinaryOp) (type : ValueType)
  | unknownUnary
  | draft (error : DraftError)
  deriving Repr, DecidableEq

def Cause.message : Cause → Bytes
  | .noProgram => ascii "nil program"
  | .missingDeclaration => ascii "unexpected declaration <nil>"
  | .missingStatement => ascii "unexpected statement <nil>"
  | .missingExpression => ascii "unexpected expression <nil>"
  | .missingInitializer => ascii "unexpected initializer <nil>"
  | .stringInitializer => ascii "unexpected initializer *typecheck.StringLit"
  | .noType type => ascii "no IR type for " ++ type.name
  | .cannotNegate type => ascii "cannot negate " ++ type.name
  | .cannotCompare type => ascii "cannot compare " ++ type.name
  | .cannotPrint type => ascii "cannot print value of type " ++ type.name
  | .operatorRefused op type => ascii "operator " ++ op.symbol ++ ascii " on " ++ type.name
  | .unknownUnary => ascii "unexpected unary operator +"
  | .draft error => error.message

inductive Place
  | program
  | global (name : Bytes)
  | function (name : Bytes)
  | main
  deriving Repr, DecidableEq

structure Fault where
  place : Place
  cause : Cause
  deriving Repr, DecidableEq

def Fault.message (f : Fault) : Bytes :=
  (match f.place with
    | .program => []
    | .global name => ascii "global " ++ name ++ ascii ": "
    | .function name => ascii "function " ++ name ++ ascii ": "
    | .main => ascii "main: ")
    ++ ascii "irgen: internal error: " ++ f.cause.message

structure Site where
  module : ModuleDraft
  function : Draft
  deriving Repr, Inhabited

abbrev Lower := StateT Site (Except Cause)

namespace Lower

def emit (i : Instr) : Lower Unit :=
  modify fun s ↦ { s with function := s.function.emit i }

def define (step : Draft → Register × Draft) : Lower Operand := fun s ↦
  let (r, d) := step s.function
  .ok (.reg r, { s with function := d })

def newLabel (stem : String) : Lower Bytes := fun s ↦
  let (label, d) := s.function.newLabel (ascii stem)
  .ok (label, { s with function := d })

def startBlock (label : Bytes) : Lower Unit :=
  modify fun s ↦ { s with function := s.function.startBlock label }

def currentLabel : Lower Bytes := fun s ↦ .ok (s.function.current, s)

def openScope : Lower Unit :=
  modify fun s ↦ { s with function := s.function.openScope }

def closeScope : Lower Unit := fun s ↦
  match s.function.closeScope with
  | .ok d => .ok ((), { s with function := d })
  | .error e => .error (.draft e)

def bindName (name : Bytes) (x : Operand) : Lower Unit :=
  modify fun s ↦ { s with function := s.function.bindName name x }

def address (name : Bytes) : Lower Operand := fun s ↦
  match s.function.operand name s.module with
  | .ok x => .ok (x, s)
  | .error e => .error (.draft e)

def phi (incoming : List Incoming) : Lower Operand := fun s ↦
  match s.function.phi incoming with
  | .ok (r, d) => .ok (.reg r, { s with function := d })
  | .error e => .error (.draft e)

def intern (text : Bytes) : Lower Constant := fun s ↦
  let (c, m) := s.module.intern text
  .ok (c, { s with module := m })

end Lower

def typeOf : ValueType → Except Cause Ty
  | .int => .ok (.int 32)
  | .float => .ok (.float .single)
  | .bool => .ok (.int 1)
  | .string => .ok (.ptr (.int 8))
  | .unknown => .error (.noType .unknown)

end PZero.Lowering
