import PZero.Lowering.Stmt

namespace PZero.Lowering

open IR Lower

def globalValue : Option Typed.Literal → Except Cause Constant
  | some (.int value) => .ok (.int32 value)
  | some (.float bits) => .ok (.float .single bits)
  | some (.bool value) => .ok (.bool value)
  | some (.string _) => .error .stringInitializer
  | none => .error .missingInitializer

def locate {α : Type} (place : Place) (result : Except Cause α) : Except Fault α :=
  result.mapError (⟨place, ·⟩)

def lowerGlobal (isConst : Bool) (name : Bytes) (value : Option Typed.Literal) (m : ModuleDraft) :
    Except Fault ModuleDraft := do
  let c ← locate (.global name) (globalValue value)
  return m.declareGlobal ⟨name, c.type, isConst, c⟩

/-- Parameters move into slots, so that they can be assigned to. -/
def lowerParams : List Typed.Param → List Register → Lower Unit
  | p :: ps, r :: rs => do
    let slot ← define (Draft.alloca r.type)
    emit (.store (.reg r) slot)
    bindName p.name slot
    lowerParams ps rs
  | _, _ => pure ()

def paramRegisters : List Typed.Param → Except Cause (List Register)
  | [] => .ok []
  | p :: ps => do
    let type ← typeOf p.type
    let rest ← paramRegisters ps
    return ⟨Symbol.parameter p.name, type⟩ :: rest

def resultType : Option Typed.Result → Except Cause Ty
  | none => .ok .void
  | some result => typeOf result.type

def lowerBody (params : List Typed.Param) (registers : List Register) (body : List Typed.Stmt)
    (result : Option Typed.Result) : Lower Unit := do
  openScope
  lowerParams params registers
  lowerStmts body
  match result with
  | some result =>
    let x ← lowerExpr result.value
    emit (.ret x)
  | none => emit .retVoid
  closeScope

def lowerMainBody (body : Typed.Stmt) : Lower Unit := do
  openScope
  lowerStmt body
  closeScope
  emit (.ret (.const (.int32 0)))

def addFunction (draft : Draft) (code : Lower Unit) (m : ModuleDraft) :
    Except Cause ModuleDraft := do
  let (_, site) ← code.run ⟨m, draft⟩
  match site.function.finish site.module with
  | .ok (m, _) => return m
  | .error e => throw (.draft e)

def lowerFunction (name : Bytes) (params : List Typed.Param) (body : List Typed.Stmt)
    (result : Option Typed.Result) (m : ModuleDraft) : Except Fault ModuleDraft :=
  locate (.function name) do
    let registers ← paramRegisters params
    let type ← resultType result
    addFunction (.new name registers type) (lowerBody params registers body result) m

def lowerDecl (m : ModuleDraft) : Typed.Decl → Except Fault ModuleDraft
  | .const name value => lowerGlobal true name value m
  | .var name value => lowerGlobal false name value m
  | .fun_ name params body result => lowerFunction name params body result m
  | .missing => .error ⟨.program, .missingDeclaration⟩

def lowerMain (body : Typed.Stmt) (m : ModuleDraft) : Except Fault ModuleDraft :=
  locate .main (addFunction (.new (ascii "main") [] (.int 32)) (lowerMainBody body) m)

def start (id : Bytes) : ModuleDraft :=
  { ModuleDraft.new (if id = [] then ascii "p0" else id) with externals := Library.externals }

/-- The module is named `p0` unless it is given another name. A function sees only the globals that
are declared before it. -/
def lower (id : Bytes) (program : Typed.Program) : Except Fault IR.Module := do
  let m ← program.decls.foldlM lowerDecl (start id)
  let m ← lowerMain program.main m
  return m.build

end PZero.Lowering
