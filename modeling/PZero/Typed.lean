import PZero.Operator

namespace PZero

/-- The type of a value. `unknown` belongs to an expression whose type could not be determined. -/
inductive ValueType
  | int | float | bool | string | unknown
  deriving Repr, DecidableEq, Inhabited

def ValueType.name : ValueType → Bytes
  | .int => ascii "Int"
  | .float => ascii "Float"
  | .bool => ascii "Bool"
  | .string => ascii "String"
  | .unknown => ascii "<error>"

namespace Typed

inductive Literal
  | bool (value : Bool)
  | int (value : Int)
  | float (bits : UInt64)
  | string (text : Bytes)
  deriving Repr, DecidableEq

def Literal.type : Literal → ValueType
  | .bool _ => .bool
  | .int _ => .int
  | .float _ => .float
  | .string _ => .string

/-- `unaryUnknown` applies an operator that has no meaning; it only occurs in trees built by
hand. -/
inductive Expr
  | conditional (cond then_ else_ : Expr)
  | binary (op : BinaryOp) (left right : Expr)
  | unary (op : UnaryOp) (operand : Expr)
  | unaryUnknown (operand : Expr)
  | call (type : ValueType) (callee : Bytes) (args : List Expr)
  | ident (type : ValueType) (name : Bytes)
  | literal (value : Literal)
  | missing
  deriving Repr

def Expr.type : Expr → ValueType
  | .conditional _ then_ _ => then_.type
  | .binary op left _ => if op.isArithmetic then left.type else .bool
  | .unary _ operand | .unaryUnknown operand => operand.type
  | .call type _ _ | .ident type _ => type
  | .literal value => value.type
  | .missing => .unknown

/-- A builtin call prints its arguments; any other call runs a unit function. -/
inductive Stmt
  | assign (name : Bytes) (value : Expr)
  | const (name : Bytes) (value : Expr)
  | let_ (name : Bytes) (value : Expr)
  | if_ (cond : Expr) (then_ : Stmt) (else_ : Option Stmt)
  | while_ (cond : Expr) (body : Stmt)
  | block (stmts : List Stmt)
  | call (callee : Bytes) (args : List Expr) (builtin : Bool)
  | empty
  | missing
  deriving Repr

structure Param where
  name : Bytes
  type : ValueType
  deriving Repr, DecidableEq

structure Result where
  type : ValueType
  value : Expr
  deriving Repr

inductive Decl
  | const (name : Bytes) (value : Option Literal)
  | var (name : Bytes) (value : Option Literal)
  | fun_ (name : Bytes) (params : List Param) (body : List Stmt) (result : Option Result)
  | missing
  deriving Repr

structure Program where
  decls : List Decl
  main : Stmt
  deriving Repr

end Typed

end PZero
