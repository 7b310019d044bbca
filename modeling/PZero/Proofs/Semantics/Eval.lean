import PZero.Binary.Arithmetic
import PZero.Binary.Print
import PZero.Typed

namespace PZero.Semantics

/-- Integers have 32 bits. A float is the pattern of a double that holds a single. -/
inductive Value
  | int (n : BitVec 32)
  | float (bits : UInt64)
  | bool (b : Bool)
  deriving Repr, DecidableEq

namespace Value

def type : Value → ValueType
  | .int _ => .int
  | .float _ => .float
  | .bool _ => .bool

def text : Value → Bytes
  | .int n => Bytes.ofInt n.toInt
  | .float bits => Binary.fixedSix bits
  | .bool b => ascii (if b then "true" else "false")

def ofLiteral? : Typed.Literal → Option Value
  | .bool b => some (.bool b)
  | .int n => some (.int (BitVec.ofInt 32 n))
  | .float bits => some (.float (Binary.toSingle bits))
  | .string _ => none

end Value

/-- What printing a string shows: a zero byte ends it. -/
def stringText (text : Bytes) : Bytes := text.takeWhile (· != 0)

inductive Trap
  | divisionByZero
  | divisionOverflow
  | depth
  deriving Repr, DecidableEq

/-- Why there is no value. A tree that is not well typed may be stuck. -/
inductive Stop
  | trap (cause : Trap)
  | timeout
  | stuck
  deriving Repr, DecidableEq

/-- Division toward zero. -/
def divide (x y : BitVec 32) : Except Stop Value :=
  if y = 0 then .error (.trap .divisionByZero)
  else if x = BitVec.intMin 32 ∧ y = -1 then .error (.trap .divisionOverflow)
  else .ok (.int (x.sdiv y))

/-- A comparison of floats, false when one of them is not a number. -/
def ordered (test : Int → Int → Bool) (x y : UInt64) : Value :=
  .bool (!(Binary.isNan x || Binary.isNan y) && test (Binary.order x) (Binary.order y))

def binary : BinaryOp → Value → Value → Except Stop Value
  | .plus, .int x, .int y => .ok (.int (x + y))
  | .minus, .int x, .int y => .ok (.int (x - y))
  | .times, .int x, .int y => .ok (.int (x * y))
  | .divide, .int x, .int y => divide x y
  | .equal, .int x, .int y => .ok (.bool (x == y))
  | .notEqual, .int x, .int y => .ok (.bool (x != y))
  | .less, .int x, .int y => .ok (.bool (x.slt y))
  | .lessEqual, .int x, .int y => .ok (.bool (x.sle y))
  | .greater, .int x, .int y => .ok (.bool (y.slt x))
  | .greaterEqual, .int x, .int y => .ok (.bool (y.sle x))
  | .plus, .float x, .float y => .ok (.float (Binary.add x y))
  | .minus, .float x, .float y => .ok (.float (Binary.sub x y))
  | .times, .float x, .float y => .ok (.float (Binary.mul x y))
  | .divide, .float x, .float y => .ok (.float (Binary.div x y))
  | .equal, .float x, .float y => .ok (ordered (· = ·) x y)
  | .notEqual, .float x, .float y => .ok (ordered (· ≠ ·) x y)
  | .less, .float x, .float y => .ok (ordered (· < ·) x y)
  | .lessEqual, .float x, .float y => .ok (ordered (· ≤ ·) x y)
  | .greater, .float x, .float y => .ok (ordered (· > ·) x y)
  | .greaterEqual, .float x, .float y => .ok (ordered (· ≥ ·) x y)
  | .and, .bool x, .bool y => .ok (.bool (x && y))
  | .or, .bool x, .bool y => .ok (.bool (x || y))
  | .equal, .bool x, .bool y => .ok (.bool (x == y))
  | .notEqual, .bool x, .bool y => .ok (.bool (x != y))
  | _, _, _ => .error .stuck

/-- A negated float is its difference from zero. -/
def unary : UnaryOp → Value → Except Stop Value
  | .not, .bool b => .ok (.bool !b)
  | .negate, .int n => .ok (.int (-n))
  | .negate, .float bits => .ok (.float (Binary.sub (Binary.toSingle 0) bits))
  | .identity, v => .ok v
  | _, _ => .error .stuck

/-- The global variables with their values, and what has been printed. -/
structure Store where
  globals : List (Bytes × Value)
  output : Bytes
  deriving Repr, DecidableEq

abbrev Eval := EStateM Stop Store

instance decEqResult {ε σ α : Type} [DecidableEq ε] [DecidableEq σ] [DecidableEq α] :
    DecidableEq (EStateM.Result ε σ α)
  | .ok a s, .ok b t => decidable_of_iff (a = b ∧ s = t) (by simp)
  | .error e s, .error f t => decidable_of_iff (e = f ∧ s = t) (by simp)
  | .ok .., .error .. => isFalse nofun
  | .error .., .ok .. => isFalse nofun

/-- The variables of a function and their values, the innermost one first. -/
abbrev Env := List (Bytes × Value)

def update? (name : Bytes) (value : Value) : Env → Option Env
  | [] => none
  | (other, held) :: rest =>
    if other = name then some ((other, value) :: rest)
    else (update? name value rest).map ((other, held) :: ·)

/-- Forgets the variables declared since a scope was entered with the environment `outer`. -/
def leave (outer inner : Env) : Env := inner.drop (inner.length - outer.length)

def ofExcept {α : Type} : Except Stop α → Eval α
  | .ok a => pure a
  | .error e => throw e

def emit (text : Bytes) : Eval Unit :=
  modify fun w ↦ { w with output := w.output ++ text }

/-- A name means its innermost declaration, and a global variable if no other declares it. -/
def read (env : Env) (name : Bytes) : Eval Value := do
  match env.lookup name with
  | some v => return v
  | none =>
    match (← get).globals.lookup name with
    | some v => return v
    | none => throw .stuck

def assign (env : Env) (name : Bytes) (value : Value) : Eval Env := do
  match update? name value env with
  | some env => return env
  | none =>
    match update? name value (← get).globals with
    | some globals =>
      modify fun w ↦ { w with globals }
      return env
    | none => throw .stuck

def select {α : Type} (v : Value) (yes no : Eval α) : Eval α :=
  match v with
  | .bool true => yes
  | .bool false => no
  | _ => throw .stuck

/-- How a function is called; a unit function gives no value. -/
abbrev Call := Bytes → List Value → Eval (Option Value)

section Bodies

variable (call : Call)

mutual

/-- Operands and arguments are evaluated from left to right, and only the chosen arm of a
conditional expression. -/
def evalExpr (env : Env) : Typed.Expr → Eval Value
  | .conditional cond then_ else_ => do
    let c ← evalExpr env cond
    select c (evalExpr env then_) (evalExpr env else_)
  | .binary op left right => do
    let x ← evalExpr env left
    let y ← evalExpr env right
    ofExcept (binary op x y)
  | .unary op operand => do
    let x ← evalExpr env operand
    ofExcept (unary op x)
  | .call _ callee args => do
    let vs ← evalExprs env args
    let result ← call callee vs
    ofExcept (result.elim (.error .stuck) .ok)
  | .ident _ name => read env name
  | .literal value => ofExcept ((Value.ofLiteral? value).elim (.error .stuck) .ok)
  | .unaryUnknown _ | .missing => throw .stuck

def evalExprs (env : Env) : List Typed.Expr → Eval (List Value)
  | [] => pure []
  | e :: es => do
    let v ← evalExpr env e
    let vs ← evalExprs env es
    return v :: vs

end

/-- Prints an argument as soon as it has its value. -/
def printArg (env : Env) : Typed.Expr → Eval Unit
  | .literal (.string text) => emit (stringText text)
  | e => do
    let v ← evalExpr call env e
    emit v.text

def printArgs (env : Env) : List Typed.Expr → Eval Unit
  | [] => pure ()
  | e :: es => do
    printArg call env e
    printArgs env es

/-- Runs a body as long as a guard holds, at most as often as the clock allows. The body has a scope
of its own. -/
def loop (guard : Env → Eval Value) (body : Env → Eval Env) : (clock : Nat) → Env → Eval Env
  | 0, _ => throw .timeout
  | clock + 1, env => do
    let c ← guard env
    select c (do
      let inner ← body env
      loop guard body clock (leave env inner)) (pure env)

mutual

/-- The environment after a statement. -/
def execStmt (clock : Nat) (env : Env) : Typed.Stmt → Eval Env
  | .assign name value => do
    let v ← evalExpr call env value
    assign env name v
  | .const name value | .let_ name value => do
    let v ← evalExpr call env value
    return (name, v) :: env
  | .if_ cond then_ none => do
    let c ← evalExpr call env cond
    select c (do
      let inner ← execStmt clock env then_
      return leave env inner) (pure env)
  | .if_ cond then_ (some else_) => do
    let c ← evalExpr call env cond
    select c (do
      let inner ← execStmt clock env then_
      return leave env inner) (do
      let inner ← execStmt clock env else_
      return leave env inner)
  | .while_ cond body =>
    loop (fun env ↦ evalExpr call env cond) (fun env ↦ execStmt clock env body) clock env
  | .block stmts => do
    let inner ← execStmts clock env stmts
    return leave env inner
  | .call callee args true => do
    printArgs call env args
    if callee = ascii "println" then emit (ascii "\n")
    return env
  | .call callee args false => do
    let vs ← evalExprs call env args
    let _ ← call callee vs
    return env
  | .empty => pure env
  | .missing => throw .stuck

def execStmts (clock : Nat) (env : Env) : List Typed.Stmt → Eval Env
  | [] => pure env
  | s :: ss => do
    let env ← execStmt clock env s
    execStmts clock env ss

end

def evalResult (env : Env) : Option Typed.Result → Eval (Option Value)
  | none => pure none
  | some result => do
    let v ← evalExpr call env result.value
    return some v

end Bodies

def function? (p : Typed.Program) (name : Bytes) :
    Option (List Typed.Param × List Typed.Stmt × Option Typed.Result) :=
  p.decls.findSome? fun
    | .fun_ other params body result =>
      if other = name then some (params, body, result) else none
    | _ => none

def entryEnv (params : List Typed.Param) (args : List Value) : Env :=
  ((params.map Typed.Param.name).zip args).reverse

/-- Calls a function at a depth, which must be within the bound. -/
def call (p : Typed.Program) (bound : Int) : (clock depth : Nat) → Call
  | 0, _, _, _ => throw .timeout
  | clock + 1, depth, name, args =>
    if bound < depth then throw (.trap .depth)
    else
      match function? p name with
      | none => throw .stuck
      | some (params, body, result) => do
        let env ← execStmts (call p bound clock (depth + 1)) clock (entryEnv params args) body
        evalResult (call p bound clock (depth + 1)) env result

def main (p : Typed.Program) (bound : Int) (clock : Nat) : Eval Unit :=
  if bound < 1 then throw (.trap .depth)
  else do
    let _ ← execStmt (call p bound clock 2) clock [] p.main

/-- The values that the global variables start with. -/
def initial (p : Typed.Program) : List (Bytes × Value) :=
  p.decls.filterMap fun
    | .const name (some value) | .var name (some value) =>
      (Value.ofLiteral? value).map fun v ↦ (name, v)
    | _ => none

def run (p : Typed.Program) (bound : Int) (clock : Nat) : EStateM.Result Stop Store Unit :=
  main p bound clock ⟨initial p, []⟩

end PZero.Semantics
