import PZero.Operator
import PZero.Source

namespace PZero.Surface

structure Ident where
  name : Bytes
  span : Span
  deriving Repr, DecidableEq

inductive TypeName
  | int | float | bool
  deriving Repr, DecidableEq

structure TypeRef where
  name : TypeName
  span : Span
  deriving Repr, DecidableEq

/-- Literals keep their text. `binaryUnknown` applies a symbol the language does not have; it only
occurs in trees built by hand. -/
inductive Expr
  | conditional (cond then_ else_ : Expr) (span : Span)
  | binary (op : BinaryOp) (left right : Expr) (span : Span)
  | binaryUnknown (symbol : Bytes) (left right : Expr) (span : Span)
  | unary (op : UnaryOp) (operand : Expr) (span : Span)
  | call (callee : Ident) (args : List Expr) (span : Span)
  | ident (name : Bytes) (span : Span)
  | paren (inner : Expr) (span : Span)
  | int (text : Bytes) (span : Span)
  | float (text : Bytes) (span : Span)
  | string (text : Bytes) (span : Span)
  | bool (value : Bool) (span : Span)
  deriving Repr

def Expr.span : Expr → Span
  | .conditional _ _ _ s | .binary _ _ _ s | .binaryUnknown _ _ _ s | .unary _ _ s | .call _ _ s
  | .ident _ s | .paren _ s | .int _ s | .float _ s | .string _ s | .bool _ s => s

inductive Stmt
  | decl (isConst : Bool) (name : Ident) (value : Expr) (span : Span)
  | assign (name : Ident) (value : Expr) (span : Span)
  | if_ (cond : Expr) (then_ : Stmt) (else_ : Option Stmt) (span : Span)
  | while_ (cond : Expr) (body : Stmt) (span : Span)
  | block (stmts : List Stmt) (span : Span)
  | call (callee : Ident) (args : List Expr) (span : Span)
  | empty (span : Span)
  deriving Repr

def Stmt.span : Stmt → Span
  | .decl _ _ _ s | .assign _ _ s | .if_ _ _ _ s | .while_ _ _ s | .block _ s | .call _ _ s
  | .empty s => s

structure Param where
  name : Ident
  type : TypeRef
  deriving Repr

structure Result where
  type : TypeRef
  value : Expr
  deriving Repr

inductive Decl
  | var (isConst : Bool) (name : Ident) (value : Expr) (span : Span)
  | fun_ (name : Ident) (params : List Param) (body : List Stmt) (result : Option Result)
      (span : Span)
  deriving Repr

def Decl.ident : Decl → Ident
  | .var _ name _ _ | .fun_ name _ _ _ _ => name

abbrev Program := List Decl

end PZero.Surface
