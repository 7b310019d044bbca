import Mathlib.Data.List.Forall2
import PZero.Proofs.Surface.Shape
import PZero.Proofs.Typing.Judgement

namespace PZero.Typing

open Typed (paramScope)

/-- A name means its innermost declaration. -/
inductive Resolves : Scopes → Bytes → Binding → Prop
  | here {scope : Scope} {outer : Scopes} {name : Bytes} {binding : Binding} :
    (name, binding) ∈ scope → Resolves (scope :: outer) name binding
  | outer {scope : Scope} {outer : Scopes} {name : Bytes} {binding : Binding} :
    name ∉ scope.map Prod.fst → Resolves outer name binding → Resolves (scope :: outer) name binding

/-- A name that is bound to a value. -/
def HoldsValue (scopes : Scopes) (name : Bytes) (type : ValueType) : Prop :=
  Resolves scopes name (.constant type) ∨ Resolves scopes name (.variable type)

/-- The double that a numeral denotes, if a single does not overflow on it. -/
def DenotesFloat (text : Bytes) (bits : UInt64) : Prop :=
  ∃ n, Binary.Numeral.read? text = some n ∧ n.overflows Binary.single = false ∧
    bits = UInt64.ofNat (n.pattern Binary.double)

mutual

/-- An expression, the tree it stands for and its type. A minus belongs to the integer literal
right behind it. -/
inductive Types (scopes : Scopes) : Surface.Expr → Typed.Expr → ValueType → Prop
  | bool (value : Bool) (span : Span) :
    Types scopes (.bool value span) (.literal (.bool value)) .bool
  | int {text : Bytes} (span : Span) : Bytes.digitsValue text < 0x80000000 →
    Types scopes (.int text span) (.literal (.int (Bytes.digitsValue text))) .int
  | negative {text : Bytes} (inner span : Span) : Bytes.digitsValue text ≤ 0x80000000 →
    Types scopes (.unary .negate (.int text inner) span)
      (.literal (.int (-(Bytes.digitsValue text : Int)))) .int
  | float {text : Bytes} {bits : UInt64} (span : Span) : DenotesFloat text bits →
    Types scopes (.float text span) (.literal (.float bits)) .float
  | ident {name : Bytes} {type : ValueType} (span : Span) : HoldsValue scopes name type →
    Types scopes (.ident name span) (.ident type name) type
  | paren {inner : Surface.Expr} {x : Typed.Expr} {type : ValueType} (span : Span) :
    Types scopes inner x type → Types scopes (.paren inner span) x type
  | unary {op : UnaryOp} {operand : Surface.Expr} {x : Typed.Expr} {type : ValueType}
    (span : Span) : (∀ text inner, op = .negate → operand ≠ .int text inner) →
    Types scopes operand x type → type ∈ op.operandTypes →
    Types scopes (.unary op operand span) (.unary op x) type
  | binary {op : BinaryOp} {left right : Surface.Expr} {x y : Typed.Expr} {type : ValueType}
    (span : Span) : Types scopes left x type → Types scopes right y type →
    type ∈ op.operandTypes →
    Types scopes (.binary op left right span) (.binary op x y)
      (if op.isArithmetic then type else .bool)
  | conditional {cond then_ else_ : Surface.Expr} {c x y : Typed.Expr} {type : ValueType}
    (span : Span) : Types scopes cond c .bool → Types scopes then_ x type →
    Types scopes else_ y type →
    Types scopes (.conditional cond then_ else_ span) (.conditional c x y) type
  | call {callee : Surface.Ident} {args : List Surface.Expr} {xs : List Typed.Expr}
    {params : List ValueType} {type : ValueType} (span : Span) :
    Resolves scopes callee.name (.function params (some type)) → TypesAll scopes args xs params →
    Types scopes (.call callee args span) (.call type callee.name xs) type

inductive TypesAll (scopes : Scopes) :
    List Surface.Expr → List Typed.Expr → List ValueType → Prop
  | nil : TypesAll scopes [] [] []
  | cons {e : Surface.Expr} {es : List Surface.Expr} {x : Typed.Expr} {xs : List Typed.Expr}
    {type : ValueType} {types : List ValueType} : Types scopes e x type →
    TypesAll scopes es xs types → TypesAll scopes (e :: es) (x :: xs) (type :: types)

end

/-- An argument of a printing statement: a string literal, or an expression. -/
inductive Prints (scopes : Scopes) : Surface.Expr → Typed.Expr → Prop
  | string {text value : Bytes} (span : Span) : StringLiteral.decode text = .ok value →
    Prints scopes (.string text span) (.literal (.string value))
  | value {e : Surface.Expr} {x : Typed.Expr} {type : ValueType} : Types scopes e x type →
    Prints scopes e x

mutual

/-- A statement, the tree it stands for and the scopes behind it. -/
inductive Checks : Scopes → Surface.Stmt → Typed.Stmt → Scopes → Prop
  | const {scope : Scope} {outer : Scopes} {name : Surface.Ident} {value : Surface.Expr}
    {x : Typed.Expr} {type : ValueType} (span : Span) : Types (scope :: outer) value x type →
    name.name ∉ scope.map Prod.fst →
    Checks (scope :: outer) (.decl true name value span) (.const name.name x)
      (((name.name, .constant type) :: scope) :: outer)
  | let_ {scope : Scope} {outer : Scopes} {name : Surface.Ident} {value : Surface.Expr}
    {x : Typed.Expr} {type : ValueType} (span : Span) : Types (scope :: outer) value x type →
    name.name ∉ scope.map Prod.fst →
    Checks (scope :: outer) (.decl false name value span) (.let_ name.name x)
      (((name.name, .variable type) :: scope) :: outer)
  | assign {scopes : Scopes} {name : Surface.Ident} {value : Surface.Expr} {x : Typed.Expr}
    {type : ValueType} (span : Span) : Types scopes value x type →
    Resolves scopes name.name (.variable type) →
    Checks scopes (.assign name value span) (.assign name.name x) scopes
  | if_ {scopes inner : Scopes} {cond : Surface.Expr} {c : Typed.Expr} {then_ : Surface.Stmt}
    {t : Typed.Stmt} (span : Span) : Types scopes cond c .bool →
    Checks ([] :: scopes) then_ t inner →
    Checks scopes (.if_ cond then_ none span) (.if_ c t none) scopes
  | ifElse {scopes inner inner' : Scopes} {cond : Surface.Expr} {c : Typed.Expr}
    {then_ else_ : Surface.Stmt} {t e : Typed.Stmt} (span : Span) : Types scopes cond c .bool →
    Checks ([] :: scopes) then_ t inner → Checks ([] :: scopes) else_ e inner' →
    Checks scopes (.if_ cond then_ (some else_) span) (.if_ c t (some e)) scopes
  | while_ {scopes inner : Scopes} {cond : Surface.Expr} {c : Typed.Expr} {body : Surface.Stmt}
    {b : Typed.Stmt} (span : Span) : Types scopes cond c .bool →
    Checks ([] :: scopes) body b inner →
    Checks scopes (.while_ cond body span) (.while_ c b) scopes
  | block {scopes inner : Scopes} {stmts : List Surface.Stmt} {ss : List Typed.Stmt}
    (span : Span) : ChecksAll ([] :: scopes) stmts ss inner →
    Checks scopes (.block stmts span) (.block ss) scopes
  | print {scopes : Scopes} {callee : Surface.Ident} {args : List Surface.Expr}
    {xs : List Typed.Expr} (span : Span) : callee.name ∈ [ascii "print", ascii "println"] →
    (∀ binding, ¬Resolves scopes callee.name binding) → List.Forall₂ (Prints scopes) args xs →
    Checks scopes (.call callee args span) (.call callee.name xs true) scopes
  | call {scopes : Scopes} {callee : Surface.Ident} {args : List Surface.Expr}
    {xs : List Typed.Expr} {params : List ValueType} (span : Span) :
    Resolves scopes callee.name (.function params none) → TypesAll scopes args xs params →
    Checks scopes (.call callee args span) (.call callee.name xs false) scopes
  | empty {scopes : Scopes} (span : Span) : Checks scopes (.empty span) .empty scopes

inductive ChecksAll : Scopes → List Surface.Stmt → List Typed.Stmt → Scopes → Prop
  | nil {scopes : Scopes} : ChecksAll scopes [] [] scopes
  | cons {scopes scopes' scopes'' : Scopes} {s : Surface.Stmt} {t : Typed.Stmt}
    {ss : List Surface.Stmt} {ts : List Typed.Stmt} : Checks scopes s t scopes' →
    ChecksAll scopes' ss ts scopes'' → ChecksAll scopes (s :: ss) (t :: ts) scopes''

end

/-- The value that a top-level variable starts with. -/
inductive Initial : Surface.Expr → Typed.Literal → Prop
  | bool (value : Bool) (span : Span) : Initial (.bool value span) (.bool value)
  | int {text : Bytes} (span : Span) : Bytes.digitsValue text < 0x80000000 →
    Initial (.int text span) (.int (Bytes.digitsValue text))
  | float {text : Bytes} {bits : UInt64} (span : Span) : DenotesFloat text bits →
    Initial (.float text span) (.float bits)
  | positive {number : Surface.Expr} {value : Typed.Literal} (span : Span) : number.IsNumber →
    Initial number value → Initial (.unary .identity number span) value
  | negativeInt {text : Bytes} (inner span : Span) : Bytes.digitsValue text ≤ 0x80000000 →
    Initial (.unary .negate (.int text inner) span) (.int (-(Bytes.digitsValue text : Int)))
  | negativeFloat {text : Bytes} {bits : UInt64} (inner span : Span) :
    DenotesFloat (45 :: text) bits →
    Initial (.unary .negate (.float text inner) span) (.float bits)

/-- A declaration where the top-level names are those of `scope`. A value function returns its
value behind its body. -/
inductive Declares (scope : Scope) : Surface.Decl → Typed.Decl → Prop
  | const {name : Surface.Ident} {value : Surface.Expr} {v : Typed.Literal} (span : Span) :
    Initial value v → Declares scope (.var true name value span) (.const name.name (some v))
  | var {name : Surface.Ident} {value : Surface.Expr} {v : Typed.Literal} (span : Span) :
    Initial value v → Declares scope (.var false name value span) (.var name.name (some v))
  | unit {name : Surface.Ident} {params : List Surface.Param} {body : List Surface.Stmt}
    {ss : List Typed.Stmt} {inner : Scopes} (span : Span) :
    (params.map fun p ↦ p.name.name).Nodup →
    ChecksAll [paramScope (typedParams params), scope] body ss inner →
    Declares scope (.fun_ name params body none span)
      (.fun_ name.name (typedParams params) ss none)
  | value {name : Surface.Ident} {params : List Surface.Param} {body : List Surface.Stmt}
    {type : Surface.TypeRef} {result : Surface.Expr} {ss : List Typed.Stmt} {x : Typed.Expr}
    {inner : Scopes} (span : Span) : (params.map fun p ↦ p.name.name).Nodup →
    ChecksAll [paramScope (typedParams params), scope] body ss inner →
    Types inner result x (valueType type.name) →
    Declares scope (.fun_ name params body (some ⟨type, result⟩) span)
      (.fun_ name.name (typedParams params) ss (some ⟨valueType type.name, x⟩))

/-- The body of `main`, a unit function without parameters. A program may do without it, and a body
of one statement stands for itself. -/
inductive Starts (scope : Scope) : List Surface.Decl → Typed.Stmt → Prop
  | none : Starts scope [] .empty
  | main {name : Surface.Ident} {body : List Surface.Stmt} {ss : List Typed.Stmt} {inner : Scopes}
    (span : Span) : ChecksAll [[], scope] body ss inner →
    Starts scope [.fun_ name [] body none span] (oneStmt ss)

/-- A program and the tree it stands for. All top-level names but `main` are in scope everywhere. -/
structure WellFormed (program : Surface.Program) (typed : Typed.Program) : Prop where
  distinct : (program.map fun d ↦ d.ident.name).Nodup
  not_library : ∀ d ∈ program, d.ident.name ∉ Library.names
  decls : List.Forall₂ (Declares typed.scope)
    (program.filter fun d ↦ d.ident.name ≠ ascii "main") typed.decls
  main : Starts typed.scope (program.filter fun d ↦ d.ident.name = ascii "main") typed.main

end PZero.Typing
