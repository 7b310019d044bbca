import PZero.Surface
import PZero.Surface.ParseError
import PZero.Token.Scan

namespace PZero.Surface

/-- `ahead` follows the current token, and the last token is the end of the file. `failed` says that
an error was reported in this declaration. -/
structure Reader where
  previous : Token
  current : Token
  ahead : List Token
  failed : Bool
  errors : List ParseError
  deriving Repr

/-- The functions that read take a bound on their depth. Each of them calls another one a fixed
number of times before it takes a token, so that `parse` can choose a bound that is never reached.
-/
abbrev Reading := StateM Reader

namespace Reading

def peek : Reading Token := return (← get).current

def advance : Reading Token := modifyGet fun r ↦
  match r.ahead with
  | [] => (r.current, r)
  | next :: ahead => (r.current, { r with previous := r.current, current := next, ahead := ahead })

def eat (kind : Token.Kind) : Reading Bool := do
  if (← peek).kind = kind then
    discard advance
    return true
  else return false

/-- Reports a problem at the current token, unless the declaration has failed already. A bad token
is reported as such, whatever was wanted in its place. -/
def report (problem : ParseProblem) : Reading Unit := modify fun r ↦
  if r.failed then r
  else
    let told := if r.current.kind = .bad then .invalidToken r.current.lexeme else problem
    { r with failed := true, errors := r.errors ++ [⟨r.current.span, told⟩] }

def giveUp : Reading Unit := modify fun r ↦
  { r with failed := true, errors := r.errors ++ [⟨r.current.span, .tooDeep⟩] }

def expect (kind : Token.Kind) (what : Wanted) : Reading Token := do
  if (← peek).kind = kind then advance
  else
    report (.wanted what)
    peek

end Reading

open Reading

def binaryOp? : Token.Kind → Option BinaryOp
  | .orOr => some .or
  | .andAnd => some .and
  | .equal => some .equal
  | .notEqual => some .notEqual
  | .less => some .less
  | .lessEqual => some .lessEqual
  | .greater => some .greater
  | .greaterEqual => some .greaterEqual
  | .plus => some .plus
  | .minus => some .minus
  | .star => some .times
  | .slash => some .divide
  | _ => none

mutual

def readOperand : (bound : Nat) → Reading Expr
  | 0 => do
    giveUp
    return .int (ascii "0") (← peek).span
  | bound + 1 => do
    let tok ← peek
    match tok.kind with
    | .ident =>
      discard advance
      if ← eat .openParen then
        let args ← readArgs bound
        return .call ⟨tok.lexeme, tok.span⟩ args (tok.span.join (← get).previous.span)
      else return .ident tok.lexeme tok.span
    | .int =>
      discard advance
      return .int tok.lexeme tok.span
    | .float =>
      discard advance
      return .float tok.lexeme tok.span
    | .string =>
      discard advance
      return .string tok.lexeme tok.span
    | .trueKw =>
      discard advance
      return .bool true tok.span
    | .falseKw =>
      discard advance
      return .bool false tok.span
    | .openParen =>
      discard advance
      let inner ← readExpr bound
      let close ← expect .closeParen .closeParen
      return .paren inner (tok.span.join close.span)
    | .minus => readSigned bound .negate tok
    | .bang => readSigned bound .not tok
    | .plus => readSigned bound .identity tok
    | _ =>
      report (.wantedExpression tok.kind)
      return .int (ascii "0") tok.span

def readSigned : (bound : Nat) → UnaryOp → Token → Reading Expr
  | 0, _, tok => do
    giveUp
    return .int (ascii "0") tok.span
  | bound + 1, op, tok => do
    discard advance
    let operand ← readOperand bound
    return .unary op operand (tok.span.join operand.span)

def readBinary : (bound : Nat) → (level : Nat) → Reading Expr
  | 0, _ => do
    giveUp
    return .int (ascii "0") (← peek).span
  | bound + 1, level => do
    let left ← readOperand bound
    readBinaryRest bound level left

def readBinaryRest : (bound : Nat) → (level : Nat) → Expr → Reading Expr
  | 0, _, left => do
    giveUp
    return left
  | bound + 1, level, left => do
    let tok ← peek
    match binaryOp? tok.kind with
    | none => return left
    | some op =>
      if op.level < level then return left
      else
        discard advance
        let right ← readBinary bound (op.level + 1)
        if op.isRelational then
          if ((binaryOp? (← peek).kind).map BinaryOp.isRelational).getD false then
            report (.chainedComparison tok.lexeme)
        readBinaryRest bound level (.binary op left right (left.span.join right.span))

def readExpr : (bound : Nat) → Reading Expr
  | 0 => do
    giveUp
    return .int (ascii "0") (← peek).span
  | bound + 1 => do
    let cond ← readBinary bound 1
    if ← eat .question then
      let then_ ← readExpr bound
      discard (expect .colon .colonInConditional)
      let else_ ← readExpr bound
      return .conditional cond then_ else_ (cond.span.join else_.span)
    else return cond

def readArgs : (bound : Nat) → Reading (List Expr)
  | 0 => do
    giveUp
    return []
  | bound + 1 => do
    if (← peek).kind = .closeParen then
      discard advance
      return []
    else
      let args ← readArgList bound
      discard (expect .closeParen .closeParenAfterArguments)
      return args

def readArgList : (bound : Nat) → Reading (List Expr)
  | 0 => do
    giveUp
    return []
  | bound + 1 => do
    let first ← readExpr bound
    if ← eat .comma then
      let rest ← readArgList bound
      return first :: rest
    else return [first]

end

def readLocal (bound : Nat) (isConst : Bool) : Reading Stmt := do
  let tok ← advance
  let name ← expect .ident .name
  discard (expect .assign .equals)
  let value ← readExpr bound
  let semi ← expect .semicolon .semicolonAfterLocal
  return .decl isConst ⟨name.lexeme, name.span⟩ value (tok.span.join semi.span)

mutual

def readStmt : (bound : Nat) → Reading Stmt
  | 0 => do
    giveUp
    return .empty (← peek).span
  | bound + 1 => do
    let tok ← peek
    match tok.kind with
    | .constKw => readLocal bound true
    | .letKw => readLocal bound false
    | .ifKw =>
      discard advance
      let cond ← readExpr bound
      let then_ ← readStmt bound
      let span := tok.span.join then_.span
      if ← eat .elseKw then
        let else_ ← readStmt bound
        return .if_ cond then_ (some else_) (span.join else_.span)
      else return .if_ cond then_ none span
    | .whileKw =>
      discard advance
      let cond ← readExpr bound
      let body ← readStmt bound
      return .while_ cond body (tok.span.join body.span)
    | .openBrace =>
      discard advance
      let stmts ← readBlock bound
      let close ← expect .closeBrace .closeBlock
      return .block stmts (tok.span.join close.span)
    | .semicolon =>
      discard advance
      return .empty tok.span
    | .ident =>
      discard advance
      if ← eat .openParen then
        let args ← readArgs bound
        let semi ← expect .semicolon .semicolonAfterCall
        return .call ⟨tok.lexeme, tok.span⟩ args (tok.span.join semi.span)
      else if ← eat .assign then
        let value ← readExpr bound
        let semi ← expect .semicolon .semicolonAfterAssignment
        return .assign ⟨tok.lexeme, tok.span⟩ value (tok.span.join semi.span)
      else
        report (.wanted .callOrAssignment)
        return .empty tok.span
    | kind =>
      report (.wantedStatement kind)
      discard advance
      return .empty tok.span

def readBlock : (bound : Nat) → Reading (List Stmt)
  | 0 => do
    giveUp
    return []
  | bound + 1 => do
    let kind := (← peek).kind
    if kind = .closeBrace || kind = .endOfFile || (← get).failed then return []
    else
      let first ← readStmt bound
      let rest ← readBlock bound
      return first :: rest

end

def readBody : (bound : Nat) → Reading (List Stmt)
  | 0 => do
    giveUp
    return []
  | bound + 1 => do
    let kind := (← peek).kind
    if kind = .closeBrace || kind = .returnKw || kind = .endOfFile || (← get).failed then return []
    else
      let first ← readStmt bound
      let rest ← readBody bound
      return first :: rest

def readType : Reading TypeRef := do
  let tok ← peek
  match tok.kind with
  | .intType =>
    discard advance
    return ⟨.int, tok.span⟩
  | .floatType =>
    discard advance
    return ⟨.float, tok.span⟩
  | .boolType =>
    discard advance
    return ⟨.bool, tok.span⟩
  | _ =>
    report (.wanted .typeName)
    return ⟨.int, tok.span⟩

def readParams : (bound : Nat) → Reading (List Param)
  | 0 => do
    giveUp
    return []
  | bound + 1 => do
    let name ← expect .ident .parameterName
    discard (expect .colon .colonAfterParameter)
    let type ← readType
    let first : Param := ⟨⟨name.lexeme, name.span⟩, type⟩
    if ← eat .comma then
      let rest ← readParams bound
      return first :: rest
    else return [first]

def readNumber : Reading (Option Expr) := do
  let tok ← peek
  match tok.kind with
  | .int =>
    discard advance
    return some (.int tok.lexeme tok.span)
  | .float =>
    discard advance
    return some (.float tok.lexeme tok.span)
  | _ =>
    report (.wanted .literalValue)
    return none

def readInitializer : Reading (Option Expr) := do
  let tok ← peek
  match tok.kind with
  | .trueKw =>
    discard advance
    return some (.bool true tok.span)
  | .falseKw =>
    discard advance
    return some (.bool false tok.span)
  | .plus =>
    discard advance
    return (← readNumber).map fun n ↦ .unary .identity n (tok.span.join n.span)
  | .minus =>
    discard advance
    return (← readNumber).map fun n ↦ .unary .negate n (tok.span.join n.span)
  | _ => readNumber

/-- A top-level variable, whose first word is the current token. It counts as read as soon as it
has a name and a value, even if something between or behind them is missing. -/
def readVar (isConst : Bool) : Reading (Option Decl) := do
  let start ← advance
  let name ← expect .ident .name
  if name.kind ≠ .ident then return none
  else
    discard (expect .assign .equals)
    let value ← readInitializer
    let semi ← expect .semicolon .semicolonAfterDeclaration
    return value.map fun v ↦ .var isConst ⟨name.lexeme, name.span⟩ v (start.span.join semi.span)

def readResult (bound : Nat) (type : Option TypeRef) : Reading (Option Result) := do
  match type with
  | some type =>
    discard (expect .returnKw .finalReturn)
    let value ← readExpr bound
    discard (expect .semicolon .semicolonAfterReturn)
    return some ⟨type, value⟩
  | none =>
    if (← peek).kind = .returnKw then report .unexpectedReturn
    return none

/-- A function, whose first word is the current token. A function with an error in it is not
read. -/
def readFun (bound : Nat) : Reading (Option Decl) := do
  let start ← advance
  let name ← expect .ident .functionName
  if name.kind ≠ .ident then return none
  else
    discard (expect .openParen .openParenAfterFunctionName)
    let params ← if (← peek).kind = .closeParen then pure [] else readParams bound
    discard (expect .closeParen .closeParenAfterParameters)
    let type ← if ← eat .colon then some <$> readType else pure none
    discard (expect .openBrace .openFunctionBody)
    let body ← readBody bound
    let kind := (← peek).kind
    if (← get).failed && !(kind = .closeBrace || kind = .returnKw || kind = .endOfFile) then
      return none
    else
      let result ← readResult bound type
      let close ← expect .closeBrace .closeFunctionBody
      if (← get).failed then return none
      else
        return some (.fun_ ⟨name.lexeme, name.span⟩ params body result (start.span.join close.span))

/-- Skips to the next `fun`, because `const` and `let` also start statements. -/
def skipToFun : (bound : Nat) → Reading Unit
  | 0 => giveUp
  | bound + 1 => do
    let kind := (← peek).kind
    if kind = .endOfFile || kind = .funKw then return ()
    else
      discard advance
      skipToFun bound

def readDecl (bound : Nat) : Reading (Option Decl) := do
  modify fun r ↦ { r with failed := false }
  let tok ← peek
  let decl ← match tok.kind with
    | .constKw => readVar true
    | .letKw => readVar false
    | .funKw => readFun bound
    | kind =>
      report (.wantedDeclaration kind)
      discard advance
      pure none
  if (← get).failed then skipToFun bound
  return decl

def readProgram : (bound : Nat) → Reading Program
  | 0 => do
    giveUp
    return []
  | bound + 1 => do
    if (← peek).kind = .endOfFile then return []
    else
      let decl ← readDecl bound
      let rest ← readProgram bound
      return decl.toList ++ rest

def parse (tokens : List Token) : Program × List ParseError :=
  match tokens with
  | [] => ([], [])
  | first :: rest =>
    let bound := 8 * tokens.length + 16
    let (program, reader) := (readProgram bound).run ⟨first, first, rest, false, []⟩
    (program, reader.errors)

def parseFile (f : File) : Program × List ParseError := parse (Token.scan f.input)

end PZero.Surface
