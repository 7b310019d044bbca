import PZero.Library
import PZero.Surface.Parse
import PZero.Typing.Literals
import PZero.Typing.Scope

namespace PZero.Typing

def valueType : Surface.TypeName → ValueType
  | .int => .int
  | .float => .float
  | .bool => .bool

def blame (condition : Bool) (place : Span) (problem : Problem) : List Finding :=
  if condition then [⟨place, problem⟩] else []

def clashes (got wanted : ValueType) : Bool := got ≠ .unknown && got ≠ wanted

def differ (a b : ValueType) : Bool := a ≠ .unknown && b ≠ .unknown && a ≠ b

def isNumeric (type : ValueType) : Bool := type = .int || type = .float

def operandProblem (op : BinaryOp) (accepts : ValueType → Bool) (got : ValueType) (place : Span) :
    List Finding :=
  blame (got ≠ .unknown && !accepts got) place (.operandRefused op got)

def binaryProblems (op : BinaryOp) (left right : ValueType) (leftPlace rightPlace place : Span) :
    List Finding :=
  let mismatch := blame (differ left right) place (.operandsDiffer op left right)
  match op with
  | .and | .or =>
    operandProblem op (· = .bool) left leftPlace ++ operandProblem op (· = .bool) right rightPlace
  | .equal | .notEqual => mismatch
  | _ =>
    operandProblem op isNumeric left leftPlace ++ operandProblem op isNumeric right rightPlace
      ++ mismatch

def unaryAccepts (op : UnaryOp) (type : ValueType) : Bool :=
  if op = .not then type = .bool else isNumeric type

def argumentTypeProblems (callee : Bytes) (first : Nat) :
    List ValueType → List (ValueType × Span) → List Finding
  | wanted :: params, (got, place) :: args =>
    blame (clashes got wanted) place (.argumentType first callee wanted got)
      ++ argumentTypeProblems callee (first + 1) params args
  | _, _ => []

def argumentProblems (callee : Surface.Ident) (params : List ValueType)
    (args : List (ValueType × Span)) : List Finding :=
  if args.length = params.length then argumentTypeProblems callee.name 1 params args
  else [⟨callee.span, .argumentCount callee.name params.length args.length⟩]

def noValue (name : Bytes) : Typed.Expr := .ident .unknown name

mutual

def checkExpr (scopes : Scopes) : Surface.Expr → Typed.Expr × List Finding
  | .conditional cond then_ else_ _ =>
    let (c, cf) := checkExpr scopes cond
    let (t, tf) := checkExpr scopes then_
    let (e, ef) := checkExpr scopes else_
    (.conditional c t e,
      cf ++ tf ++ ef
        ++ blame (clashes c.type .bool) cond.span (.conditionalGuard c.type)
        ++ blame (differ t.type e.type) then_.span (.conditionalArmsDiffer t.type e.type))
  | .binary op left right place =>
    let (l, lf) := checkExpr scopes left
    let (r, rf) := checkExpr scopes right
    (.binary op l r, lf ++ rf ++ binaryProblems op l.type r.type left.span right.span place)
  | .binaryUnknown symbol _ _ place => (.missing, [⟨place, .unknownOperator symbol⟩])
  | .unary .negate (.int text _) place =>
    let (v, vf) := intLiteral text true place
    (.literal v, vf)
  | .unary op operand _ =>
    let (x, xf) := checkExpr scopes operand
    (.unary op x,
      xf ++ blame (x.type ≠ .unknown && !unaryAccepts op x.type) operand.span
        (.unaryOperandRefused op x.type))
  | .call callee args _ =>
    match scopes.lookup callee.name with
    | none => (noValue callee.name, [⟨callee.span, .unknownName callee.name⟩])
    | some (.constant _) => (noValue callee.name, [⟨callee.span, .constantCalled callee.name⟩])
    | some (.variable _) => (noValue callee.name, [⟨callee.span, .variableCalled callee.name⟩])
    | some (.function params result) =>
      let (xs, xf) := checkExprs scopes args
      let given := (xs.map Typed.Expr.type).zip (args.map (·.span))
      let problems := argumentProblems callee params given
      match result with
      | some type => (.call type callee.name xs, xf ++ problems)
      | none =>
        (noValue callee.name,
          xf ++ problems ++ [⟨callee.span, .unitFunctionAsValue callee.name⟩])
  | .ident name place =>
    match scopes.lookup name with
    | none => (noValue name, [⟨place, .unknownName name⟩])
    | some (.function ..) => (noValue name, [⟨place, .functionAsValue name⟩])
    | some (.constant type) | some (.variable type) => (.ident type name, [])
  | .paren inner _ => checkExpr scopes inner
  | .int text place =>
    let (v, vf) := intLiteral text false place
    (.literal v, vf)
  | .float text place =>
    let (v, vf) := floatLiteral text false place
    (.literal v, vf)
  | .bool value _ => (.literal (.bool value), [])
  | .string text place => (.literal (.bool true), [⟨place, .stringOutsideCall text⟩])

def checkExprs (scopes : Scopes) : List Surface.Expr → List Typed.Expr × List Finding
  | [] => ([], [])
  | e :: es =>
    let (x, xf) := checkExpr scopes e
    let (xs, xsf) := checkExprs scopes es
    (x :: xs, xf ++ xsf)

end

theorem negated_or_plain (op : UnaryOp) (operand : Surface.Expr) :
    (∃ text inner, op = .negate ∧ operand = .int text inner) ∨
      ∀ text inner, op = .negate → operand ≠ .int text inner := by
  by_cases h : ∃ text inner, op = .negate ∧ operand = .int text inner
  · exact .inl h
  · exact .inr fun text inner ho hi ↦ h ⟨text, inner, ho, hi⟩

theorem checkExpr_unary {scopes : Scopes} {op : UnaryOp} {operand : Surface.Expr} {place : Span}
    (h : ∀ text inner, op = .negate → operand ≠ .int text inner) :
    checkExpr scopes (.unary op operand place) =
      (.unary op (checkExpr scopes operand).1, (checkExpr scopes operand).2 ++
        blame ((checkExpr scopes operand).1.type ≠ .unknown &&
            !unaryAccepts op (checkExpr scopes operand).1.type) operand.span
          (.unaryOperandRefused op (checkExpr scopes operand).1.type)) := by
  rw [checkExpr]
  exact h

def checkArg (scopes : Scopes) : Surface.Expr → Typed.Expr × List Finding
  | .string text place =>
    match StringLiteral.decode text with
    | .ok value => (.literal (.string value), [])
    | .error cause => (.literal (.string []), [⟨place, .badString cause⟩])
  | e => checkExpr scopes e

def checkArgs (scopes : Scopes) : List Surface.Expr → List Typed.Expr × List Finding
  | [] => ([], [])
  | e :: es =>
    let (x, xf) := checkArg scopes e
    let (xs, xsf) := checkArgs scopes es
    (x :: xs, xf ++ xsf)

/-- The builtin unit functions take any number of arguments of any type; a declaration of the same
name hides them. -/
def isBuiltin (name : Bytes) : Bool := name = ascii "print" || name = ascii "println"

def checkCallStmt (scopes : Scopes) (callee : Surface.Ident) (args : List Surface.Expr) :
    Typed.Stmt × List Finding :=
  match scopes.lookup callee.name with
  | none =>
    if isBuiltin callee.name then
      let (xs, xf) := checkArgs scopes args
      (.call callee.name xs true, xf)
    else (.call callee.name [] false, [⟨callee.span, .unknownName callee.name⟩])
  | some (.constant _) =>
    (.call callee.name [] false, [⟨callee.span, .constantCalled callee.name⟩])
  | some (.variable _) =>
    (.call callee.name [] false, [⟨callee.span, .variableCalled callee.name⟩])
  | some (.function params result) =>
    let (xs, xf) := checkArgs scopes args
    let given := (xs.map Typed.Expr.type).zip (args.map (·.span))
    let problems := argumentProblems callee params given
    (.call callee.name xs false,
      xf ++ problems
        ++ blame result.isSome callee.span (.valueFunctionAsStatement callee.name))

def checkAssign (scopes : Scopes) (name : Surface.Ident) (value : Surface.Expr) :
    Typed.Stmt × List Finding :=
  let (x, xf) := checkExpr scopes value
  let problems : List Finding :=
    match scopes.lookup name.name with
    | none => [⟨name.span, .unknownName name.name⟩]
    | some (.constant _) => [⟨name.span, .assignToConstant name.name⟩]
    | some (.function ..) => [⟨name.span, .assignToFunction name.name⟩]
    | some (.variable wanted) =>
      blame (clashes x.type wanted) value.span (.assignType x.type name.name wanted)
  (.assign name.name x, xf ++ problems)

mutual

/-- A statement, with the scopes for what follows it: a declaration adds its name to the innermost
one. -/
def checkStmt (scopes : Scopes) : Surface.Stmt → Typed.Stmt × Scopes × List Finding
  | .assign name value _ =>
    let (s, sf) := checkAssign scopes name value
    (s, scopes, sf)
  | .decl true name value _ =>
    let (x, xf) := checkExpr scopes value
    let (scopes, df) := scopes.declare name (.constant x.type)
    (.const name.name x, scopes, xf ++ df)
  | .decl false name value _ =>
    let (x, xf) := checkExpr scopes value
    let (scopes, df) := scopes.declare name (.variable x.type)
    (.let_ name.name x, scopes, xf ++ df)
  | .if_ cond then_ none _ =>
    let (c, cf) := checkExpr scopes cond
    let (t, _, tf) := checkStmt scopes.enter then_
    (.if_ c t none, scopes, cf ++ blame (clashes c.type .bool) cond.span (.ifGuard c.type) ++ tf)
  | .if_ cond then_ (some else_) _ =>
    let (c, cf) := checkExpr scopes cond
    let (t, _, tf) := checkStmt scopes.enter then_
    let (e, _, ef) := checkStmt scopes.enter else_
    (.if_ c t (some e), scopes,
      cf ++ blame (clashes c.type .bool) cond.span (.ifGuard c.type) ++ tf ++ ef)
  | .while_ cond body _ =>
    let (c, cf) := checkExpr scopes cond
    let (b, _, bf) := checkStmt scopes.enter body
    (.while_ c b, scopes, cf ++ blame (clashes c.type .bool) cond.span (.whileGuard c.type) ++ bf)
  | .block stmts _ =>
    let (ss, _, sf) := checkStmts scopes.enter stmts
    (.block ss, scopes, sf)
  | .call callee args _ =>
    let (s, sf) := checkCallStmt scopes callee args
    (s, scopes, sf)
  | .empty _ => (.empty, scopes, [])

def checkStmts (scopes : Scopes) : List Surface.Stmt → List Typed.Stmt × Scopes × List Finding
  | [] => ([], scopes, [])
  | s :: ss =>
    let (t, scopes, tf) := checkStmt scopes s
    let (ts, scopes, tsf) := checkStmts scopes ss
    (t :: ts, scopes, tf ++ tsf)

end

def declareParams (scopes : Scopes) : List Surface.Param → Scopes × List Finding
  | [] => (scopes, [])
  | p :: ps =>
    let (scopes, df) := scopes.declare p.name (.variable (valueType p.type.name))
    let (scopes, psf) := declareParams scopes ps
    (scopes, df ++ psf)

def typedParams (params : List Surface.Param) : List Typed.Param :=
  params.map fun p ↦ ⟨p.name.name, valueType p.type.name⟩

def checkResult (scopes : Scopes) (name : Surface.Ident) :
    Option Surface.Result → Option Typed.Result × List Finding
  | none => (none, [])
  | some result =>
    let declared := valueType result.type.name
    let (x, xf) := checkExpr scopes result.value
    (some ⟨declared, x⟩,
      xf ++ blame (clashes x.type declared) name.span (.returnMismatch name.name x.type declared))

def checkDecl (scopes : Scopes) : Surface.Decl → Typed.Decl × List Finding
  | .var true name value _ =>
    let (v, vf) := initializer value
    (.const name.name (some v), vf)
  | .var false name value _ =>
    let (v, vf) := initializer value
    (.var name.name (some v), vf)
  | .fun_ name params body result _ =>
    let (scopes, pf) := declareParams scopes.enter params
    let (ss, scopes, sf) := checkStmts scopes body
    let (r, rf) := checkResult scopes name result
    (.fun_ name.name (typedParams params) ss r, pf ++ sf ++ rf)

def checkDecls (scopes : Scopes) : List Surface.Decl → List Typed.Decl × List Finding
  | [] => ([], [])
  | d :: ds =>
    let (t, tf) := checkDecl scopes d
    let (ts, tsf) := checkDecls scopes ds
    (t :: ts, tf ++ tsf)

def declBinding : Surface.Decl → Binding
  | .var true _ value _ => .constant (initializerType value)
  | .var false _ value _ => .variable (initializerType value)
  | .fun_ _ params _ result _ =>
    .function (params.map fun p ↦ valueType p.type.name)
      (result.map fun r ↦ valueType r.type.name)

def isMain (d : Surface.Decl) : Bool := d.ident.name = ascii "main"

/-- Declares every top-level name before anything is checked. The first `main` is the program and
has no name for others; a second one, and a name of the library, is a redefinition. -/
def declareAll (scopes : Scopes) (mainSeen : Bool) : List Surface.Decl → Scopes × List Finding
  | [] => (scopes, [])
  | d :: ds =>
    let name := d.ident
    if isMain d then
      let (scopes, dsf) := declareAll scopes true ds
      (scopes, blame mainSeen name.span (.redefinition name.name) ++ dsf)
    else if name.name ∈ Library.names then
      let (scopes, dsf) := declareAll scopes mainSeen ds
      (scopes, ⟨name.span, .libraryRedefinition name.name⟩ :: dsf)
    else
      let (scopes, df) := scopes.declare name (declBinding d)
      let (scopes, dsf) := declareAll scopes mainSeen ds
      (scopes, df ++ dsf)

def oneStmt : List Typed.Stmt → Typed.Stmt
  | [s] => s
  | ss => .block ss

def checkMain (scopes : Scopes) : Option Surface.Decl → Typed.Stmt × List Finding
  | none => (.empty, [])
  | some (.var _ name _ _) => (.empty, [⟨name.span, .mainNotFunction⟩])
  | some (.fun_ name params body result _) =>
    let (ss, _, sf) := checkStmts scopes.enter body
    (oneStmt ss, blame (params ≠ [] || result.isSome) name.span .mainSignature ++ sf)

def splitMain (program : Surface.Program) : Option Surface.Decl × Surface.Program :=
  (program.find? isMain, program.eraseP isMain)

/-- The typed tree of a program and all its problems. The tree has a meaning only if there are
none. -/
def checkProgram (program : Surface.Program) : Typed.Program × List Finding :=
  let (scopes, nf) := declareAll [[]] false program
  let (main, others) := splitMain program
  let (decls, df) := checkDecls scopes others
  let (body, mf) := checkMain scopes main
  (⟨decls, body⟩, nf ++ df ++ mf)

inductive Outcome
  | accepted (program : Typed.Program)
  | rejected (findings : List Finding)
  | undefinedOperator (symbol : Bytes)

def undefinedOperator? (findings : List Finding) : Option Bytes :=
  findings.findSome? fun f ↦
    match f.problem with
    | .unknownOperator symbol => some symbol
    | _ => none

def check (program : Surface.Program) : Outcome :=
  let (typed, findings) := checkProgram program
  match undefinedOperator? findings with
  | some symbol => .undefinedOperator symbol
  | none => if findings = [] then .accepted typed else .rejected findings

def checkFile (f : File) : Except (List Diagnostic) Typed.Program :=
  match Surface.parseFile f with
  | (program, []) =>
    let (typed, findings) := checkProgram program
    if findings = [] then .ok typed else .error (findings.map (·.diagnostic f))
  | (_, errors) => .error (errors.map (·.diagnostic f))

end PZero.Typing
