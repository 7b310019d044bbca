import PZero.Lowering.Basic

namespace PZero.Lowering

open IR Lower

def comparison? : BinaryOp → Option (IntPred × FloatPred)
  | .equal => some (.eq, .oeq)
  | .notEqual => some (.ne, .one)
  | .less => some (.slt, .olt)
  | .lessEqual => some (.sle, .ole)
  | .greater => some (.sgt, .ogt)
  | .greaterEqual => some (.sge, .oge)
  | _ => none

def lowerBinary (op : BinaryOp) (type : ValueType) (x y : Operand) : Lower Operand :=
  match op, type with
  | .and, _ => define (Draft.bin .and x y)
  | .or, _ => define (Draft.bin .or x y)
  | .plus, .int => define (Draft.bin .add x y)
  | .minus, .int => define (Draft.bin .sub x y)
  | .times, .int => define (Draft.bin .mul x y)
  | .divide, .int => define (Draft.bin .sdiv x y)
  | .plus, .float => define (Draft.bin .fadd x y)
  | .minus, .float => define (Draft.bin .fsub x y)
  | .times, .float => define (Draft.bin .fmul x y)
  | .divide, .float => define (Draft.bin .fdiv x y)
  | op, type =>
    match comparison? op, type with
    | some (pred, _), .int | some (pred, _), .bool => define (Draft.icmp pred x y)
    | some (_, pred), .float => define (Draft.fcmp pred x y)
    | some _, type => throw (.cannotCompare type)
    | none, type => throw (.operatorRefused op type)

/-- Negation subtracts from zero. -/
def lowerUnary (op : UnaryOp) (type : ValueType) (x : Operand) : Lower Operand :=
  match op, type with
  | .identity, _ => pure x
  | .not, _ => define (Draft.bin .xor x (.const (.bool true)))
  | .negate, .int => define (Draft.bin .sub (.const (.int32 0)) x)
  | .negate, .float => define (Draft.bin .fsub (.const (.float .single 0)) x)
  | .negate, type => throw (.cannotNegate type)

/-- A string becomes the address of its first byte. -/
def lowerLiteral : Typed.Literal → Lower Operand
  | .bool value => pure (.const (.bool value))
  | .int value => pure (.const (.int32 value))
  | .float bits => pure (.const (.float .single bits))
  | .string text => do
    let pooled ← intern text
    let zero : Operand := .const (.int32 0)
    define (Draft.gep true (Constant.cString text).type (.const pooled) [zero, zero])

mutual

def lowerExpr : Typed.Expr → Lower Operand
  | .literal value => lowerLiteral value
  | .unary op operand => do
    let x ← lowerExpr operand
    lowerUnary op operand.type x
  | .unaryUnknown operand => do
    let _ ← lowerExpr operand
    throw .unknownUnary
  | .binary op left right => do
    let x ← lowerExpr left
    let y ← lowerExpr right
    lowerBinary op left.type x y
  | .conditional cond then_ else_ => do
    let c ← lowerExpr cond
    let thenLabel ← newLabel "then"
    let elseLabel ← newLabel "else"
    let mergeLabel ← newLabel "merge"
    emit (.condBr c thenLabel elseLabel)
    startBlock thenLabel
    let x ← lowerExpr then_
    let thenEnd ← currentLabel
    emit (.br mergeLabel)
    startBlock elseLabel
    let y ← lowerExpr else_
    let elseEnd ← currentLabel
    emit (.br mergeLabel)
    startBlock mergeLabel
    phi [⟨x, thenEnd⟩, ⟨y, elseEnd⟩]
  | .ident type name => do
    let elem ← typeOf type
    let addr ← address name
    define (Draft.load elem addr)
  | .call type callee args => do
    let result ← typeOf type
    let xs ← lowerExprs args
    define (Draft.call result callee xs)
  | .missing => throw .missingExpression

def lowerExprs : List Typed.Expr → Lower (List Operand)
  | [] => pure []
  | e :: es => do
    let x ← lowerExpr e
    let xs ← lowerExprs es
    return x :: xs

end

end PZero.Lowering
