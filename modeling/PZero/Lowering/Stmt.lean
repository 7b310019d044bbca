import PZero.Library
import PZero.Lowering.Expr

namespace PZero.Lowering

open IR Lower

def lowerLocal (name : Bytes) (value : Typed.Expr) : Lower Unit := do
  let x ← lowerExpr value
  let elem ← typeOf value.type
  let slot ← define (Draft.alloca elem)
  emit (.store x slot)
  bindName name slot

def lowerPrint (value : Typed.Expr) : Lower Unit := do
  let x ← lowerExpr value
  match value.type with
  | .bool =>
    let wide ← define (Draft.zext x (.int 8))
    emit (.callVoid Library.printBool [wide])
  | .int => emit (.callVoid Library.printInt [x])
  | .float => emit (.callVoid Library.printFloat [x])
  | .string => emit (.callVoid Library.printString [x])
  | .unknown => throw (.cannotPrint .unknown)

def lowerPrints : List Typed.Expr → Lower Unit
  | [] => pure ()
  | e :: es => do
    lowerPrint e
    lowerPrints es

mutual

def lowerStmt : Typed.Stmt → Lower Unit
  | .const name value => lowerLocal name value
  | .let_ name value => lowerLocal name value
  | .assign name value => do
    let x ← lowerExpr value
    let addr ← address name
    emit (.store x addr)
  | .if_ cond then_ none => do
    let c ← lowerExpr cond
    let thenLabel ← newLabel "then"
    let mergeLabel ← newLabel "merge"
    emit (.condBr c thenLabel mergeLabel)
    startBlock thenLabel
    openScope
    lowerStmt then_
    closeScope
    emit (.br mergeLabel)
    startBlock mergeLabel
  | .if_ cond then_ (some else_) => do
    let c ← lowerExpr cond
    let thenLabel ← newLabel "then"
    let elseLabel ← newLabel "else"
    let mergeLabel ← newLabel "merge"
    emit (.condBr c thenLabel elseLabel)
    startBlock thenLabel
    openScope
    lowerStmt then_
    closeScope
    emit (.br mergeLabel)
    startBlock elseLabel
    openScope
    lowerStmt else_
    closeScope
    emit (.br mergeLabel)
    startBlock mergeLabel
  | .while_ cond body => do
    let headLabel ← newLabel "while"
    let bodyLabel ← newLabel "body"
    let mergeLabel ← newLabel "merge"
    emit (.br headLabel)
    startBlock headLabel
    let c ← lowerExpr cond
    emit (.condBr c bodyLabel mergeLabel)
    startBlock bodyLabel
    openScope
    lowerStmt body
    closeScope
    emit (.br headLabel)
    startBlock mergeLabel
  | .block stmts => do
    openScope
    lowerStmts stmts
    closeScope
  | .call callee args true => do
    lowerPrints args
    if callee = ascii "println" then emit (.callVoid Library.printLn [])
  | .call callee args false => do
    let xs ← lowerExprs args
    emit (.callVoid callee xs)
  | .empty => pure ()
  | .missing => throw .missingStatement

def lowerStmts : List Typed.Stmt → Lower Unit
  | [] => pure ()
  | s :: ss => do
    lowerStmt s
    lowerStmts ss

end

end PZero.Lowering
