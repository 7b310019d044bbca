import PZero.Library
import PZero.Typed
import PZero.Typing.Check

namespace PZero

def ValueType.scalars : List ValueType := [.int, .float, .bool]

/-- The types an operator takes on both sides. -/
def BinaryOp.operandTypes : BinaryOp → List ValueType
  | .and | .or => [.bool]
  | .equal | .notEqual => ValueType.scalars
  | _ => [.int, .float]

def UnaryOp.operandTypes : UnaryOp → List ValueType
  | .not => [.bool]
  | .negate | .identity => [.int, .float]

namespace Typed

open Typing (Binding Scope)

/-- A literal that denotes a scalar; an integer one has 32 bits. -/
def Literal.IsScalar : Literal → Prop
  | .bool _ | .float _ => True
  | .int n => -0x80000000 ≤ n ∧ n < 0x80000000
  | .string _ => False

mutual

def Expr.WellTyped (Γ : Scope) : Expr → Prop
  | .conditional cond then_ else_ =>
    cond.WellTyped Γ ∧ then_.WellTyped Γ ∧ else_.WellTyped Γ ∧ cond.type = .bool
      ∧ then_.type = else_.type
  | .binary op left right =>
    left.WellTyped Γ ∧ right.WellTyped Γ ∧ left.type = right.type ∧ left.type ∈ op.operandTypes
  | .unary op operand => operand.WellTyped Γ ∧ operand.type ∈ op.operandTypes
  | .unaryUnknown _ => False
  | .call type callee args =>
    Expr.AllWellTyped Γ args ∧ type ∈ ValueType.scalars
      ∧ Γ.lookup callee = some (.function (args.map Expr.type) (some type))
  | .ident type name =>
    type ∈ ValueType.scalars
      ∧ (Γ.lookup name = some (.constant type) ∨ Γ.lookup name = some (.variable type))
  | .literal value => value.IsScalar
  | .missing => False

def Expr.AllWellTyped (Γ : Scope) : List Expr → Prop
  | [] => True
  | e :: es => e.WellTyped Γ ∧ Expr.AllWellTyped Γ es

end

def Expr.Printable (Γ : Scope) (e : Expr) : Prop :=
  e.WellTyped Γ ∨ ∃ text, e = .literal (.string text)

/-- The scope behind a statement. -/
def Stmt.after (Γ : Scope) : Stmt → Scope
  | .const name value => (name, .constant value.type) :: Γ
  | .let_ name value => (name, .variable value.type) :: Γ
  | _ => Γ

def Stmt.afterAll (Γ : Scope) (stmts : List Stmt) : Scope := stmts.foldl Stmt.after Γ

mutual

def Stmt.WellTyped (Γ : Scope) : Stmt → Prop
  | .assign name value => value.WellTyped Γ ∧ Γ.lookup name = some (.variable value.type)
  | .const _ value | .let_ _ value => value.WellTyped Γ
  | .if_ cond then_ none => cond.WellTyped Γ ∧ cond.type = .bool ∧ then_.WellTyped Γ
  | .if_ cond then_ (some else_) =>
    cond.WellTyped Γ ∧ cond.type = .bool ∧ then_.WellTyped Γ ∧ else_.WellTyped Γ
  | .while_ cond body => cond.WellTyped Γ ∧ cond.type = .bool ∧ body.WellTyped Γ
  | .block stmts => Stmt.AllWellTyped Γ stmts
  | .call callee args true =>
    (∀ a ∈ args, a.Printable Γ) ∧ Γ.lookup callee = none ∧ Typing.isBuiltin callee
  | .call callee args false =>
    Expr.AllWellTyped Γ args ∧ Γ.lookup callee = some (.function (args.map Expr.type) none)
  | .empty => True
  | .missing => False

def Stmt.AllWellTyped (Γ : Scope) : List Stmt → Prop
  | [] => True
  | s :: ss => s.WellTyped Γ ∧ Stmt.AllWellTyped (s.after Γ) ss

end

def paramScope (params : List Param) : Scope :=
  (params.map fun p ↦ (p.name, Binding.variable p.type)).reverse

def Result.WellTyped (Γ : Scope) (result : Result) : Prop :=
  result.value.WellTyped Γ ∧ result.value.type = result.type

def Decl.WellTyped (Γ : Scope) : Decl → Prop
  | .const _ (some value) | .var _ (some value) => value.IsScalar
  | .fun_ _ params body result =>
    (params.map Param.name).Nodup ∧ (∀ p ∈ params, p.type ∈ ValueType.scalars)
      ∧ Stmt.AllWellTyped (paramScope params ++ Γ) body
      ∧ ∀ r ∈ result, r.WellTyped (Stmt.afterAll (paramScope params ++ Γ) body)
  | _ => False

def Decl.name : Decl → Bytes
  | .const name _ | .var name _ | .fun_ name _ _ _ => name
  | .missing => []

/-- What a declaration makes of its name. -/
def Decl.binding? : Decl → Option (Bytes × Binding)
  | .const name (some value) => some (name, .constant value.type)
  | .var name (some value) => some (name, .variable value.type)
  | .fun_ name params _ result =>
    some (name, .function (params.map Param.type) (result.map Result.type))
  | _ => none

/-- The top-level names of a program. They are in scope everywhere. -/
def Program.scope (p : Program) : Scope := (p.decls.filterMap Decl.binding?).reverse

structure Program.WellTyped (p : Program) : Prop where
  distinct : (p.decls.map Decl.name).Nodup
  not_main : ∀ d ∈ p.decls, d.name ≠ ascii "main"
  not_library : ∀ d ∈ p.decls, d.name ∉ Library.names
  decls : ∀ d ∈ p.decls, d.WellTyped p.scope
  main : p.main.WellTyped p.scope

end Typed

end PZero
