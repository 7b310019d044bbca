import PZero.Diagnostic
import PZero.StringLiteral
import PZero.Typed

namespace PZero.Typing

inductive Code
  | attemptToRedefineDeclaration
  | binaryExpressionOperandsIncompatible
  | binaryExpressionRequiresOperandType
  | functionReturnTypeMismatch
  | ifGuardNotBoolean
  | invalidDeclarationOfMain
  | incompatibleArgumentType
  | invalidStringLiteral
  | literalFloatOverflow
  | literalIntOverflow
  | literalString
  | mismatchInNumberOfParameters
  | ternaryExpressionResultIncompatible
  | ternaryExpressionNotBoolean
  | unableToAssignToConstant
  | unableToAssignIncompatibleTypes
  | unableToAssignToFunction
  | unableToCallUnitFunctionAsValueFunction
  | unableToCallConstantAsFunction
  | unableToCallVariableAsFunction
  | unaryExpressionRequiresOperandType
  | unableToReferenceFunction
  | unableToCallValueFunctionAsUnitFunction
  | unknownIdentifier
  | whileGuardNotBoolean
  deriving Repr, DecidableEq

def Code.name : Code → Bytes
  | .attemptToRedefineDeclaration => ascii "AttemptToRedefineDeclaration"
  | .binaryExpressionOperandsIncompatible => ascii "BinaryExpressionOperandsIncompatible"
  | .binaryExpressionRequiresOperandType => ascii "BinaryExpressionRequiresOperandType"
  | .functionReturnTypeMismatch => ascii "FunctionReturnTypeMismatch"
  | .ifGuardNotBoolean => ascii "IfGuardNotBoolean"
  | .invalidDeclarationOfMain => ascii "InvalidDeclarationOfMain"
  | .incompatibleArgumentType => ascii "IncompatibleArgumentType"
  | .invalidStringLiteral => ascii "InvalidStringLiteral"
  | .literalFloatOverflow => ascii "LiteralFloatOverflow"
  | .literalIntOverflow => ascii "LiteralIntOverflow"
  | .literalString => ascii "LiteralString"
  | .mismatchInNumberOfParameters => ascii "MismatchInNumberOfParameters"
  | .ternaryExpressionResultIncompatible => ascii "TernaryExpressionResultIncompatible"
  | .ternaryExpressionNotBoolean => ascii "TernaryExpressionNotBoolean"
  | .unableToAssignToConstant => ascii "UnableToAssignToConstant"
  | .unableToAssignIncompatibleTypes => ascii "UnableToAssignIncompatibleTypes"
  | .unableToAssignToFunction => ascii "UnableToAssignToFunction"
  | .unableToCallUnitFunctionAsValueFunction => ascii "UnableToCallUnitFunctionAsValueFunction"
  | .unableToCallConstantAsFunction => ascii "UnableToCallConstantAsFunction"
  | .unableToCallVariableAsFunction => ascii "UnableToCallVariableAsFunction"
  | .unaryExpressionRequiresOperandType => ascii "UnaryExpressionRequiresOperandType"
  | .unableToReferenceFunction => ascii "UnableToReferenceFunction"
  | .unableToCallValueFunctionAsUnitFunction => ascii "UnableToCallValueFunctionAsUnitFunction"
  | .unknownIdentifier => ascii "UnknownIdentifier"
  | .whileGuardNotBoolean => ascii "WhileGuardNotBoolean"

inductive Problem
  | redefinition (name : Bytes)
  | libraryRedefinition (name : Bytes)
  | mainNotFunction
  | mainSignature
  | operandsDiffer (op : BinaryOp) (left right : ValueType)
  | operandRefused (op : BinaryOp) (got : ValueType)
  | unaryOperandRefused (op : UnaryOp) (got : ValueType)
  | returnMismatch (name : Bytes) (got declared : ValueType)
  | ifGuard (got : ValueType)
  | whileGuard (got : ValueType)
  | conditionalGuard (got : ValueType)
  | conditionalArmsDiffer (then_ else_ : ValueType)
  | argumentType (position : Nat) (callee : Bytes) (wanted got : ValueType)
  | argumentCount (callee : Bytes) (wanted got : Nat)
  | badString (cause : StringLiteral.Error)
  | floatOverflow (shown : Bytes)
  | intOverflow (shown : Bytes)
  | stringOutsideCall (text : Bytes)
  | unsupportedInitializer
  | assignToConstant (name : Bytes)
  | assignToFunction (name : Bytes)
  | assignType (got : ValueType) (name : Bytes) (wanted : ValueType)
  | constantCalled (name : Bytes)
  | variableCalled (name : Bytes)
  | unitFunctionAsValue (name : Bytes)
  | valueFunctionAsStatement (name : Bytes)
  | functionAsValue (name : Bytes)
  | unknownName (name : Bytes)
  /-- No program has such an operator: the tree was not built by the parser. -/
  | unknownOperator (symbol : Bytes)
  deriving Repr, DecidableEq

namespace Problem

def code? : Problem → Option Code
  | .redefinition _ | .libraryRedefinition _ => some .attemptToRedefineDeclaration
  | .mainNotFunction | .mainSignature => some .invalidDeclarationOfMain
  | .operandsDiffer .. => some .binaryExpressionOperandsIncompatible
  | .operandRefused .. => some .binaryExpressionRequiresOperandType
  | .unaryOperandRefused .. => some .unaryExpressionRequiresOperandType
  | .returnMismatch .. => some .functionReturnTypeMismatch
  | .ifGuard _ => some .ifGuardNotBoolean
  | .whileGuard _ => some .whileGuardNotBoolean
  | .conditionalGuard _ => some .ternaryExpressionNotBoolean
  | .conditionalArmsDiffer .. => some .ternaryExpressionResultIncompatible
  | .argumentType .. => some .incompatibleArgumentType
  | .argumentCount .. => some .mismatchInNumberOfParameters
  | .badString _ => some .invalidStringLiteral
  | .floatOverflow _ => some .literalFloatOverflow
  | .intOverflow _ => some .literalIntOverflow
  | .stringOutsideCall _ | .unsupportedInitializer => some .literalString
  | .assignToConstant _ => some .unableToAssignToConstant
  | .assignToFunction _ => some .unableToAssignToFunction
  | .assignType .. => some .unableToAssignIncompatibleTypes
  | .constantCalled _ => some .unableToCallConstantAsFunction
  | .variableCalled _ => some .unableToCallVariableAsFunction
  | .unitFunctionAsValue _ => some .unableToCallUnitFunctionAsValueFunction
  | .valueFunctionAsStatement _ => some .unableToCallValueFunctionAsUnitFunction
  | .functionAsValue _ => some .unableToReferenceFunction
  | .unknownName _ => some .unknownIdentifier
  | .unknownOperator _ => none

def message : Problem → Bytes
  | .redefinition name => ascii "attempt to redefine " ++ name
  | .libraryRedefinition name => ascii "attempt to redefine runtime function " ++ name
  | .mainNotFunction => ascii "main must be a function"
  | .mainSignature => ascii "main must take no parameters and return no value"
  | .operandsDiffer op left right =>
    ascii "operator " ++ op.symbol ++ ascii " applied to " ++ left.name ++ ascii " and "
      ++ right.name
  | .operandRefused op got =>
    ascii "operator " ++ op.symbol ++ ascii " does not accept " ++ got.name
  | .unaryOperandRefused op got =>
    ascii "operator " ++ op.symbol ++ ascii " does not accept " ++ got.name
  | .returnMismatch name got declared =>
    ascii "function " ++ name ++ ascii " returns " ++ got.name ++ ascii ", declared "
      ++ declared.name
  | .ifGuard got => ascii "if guard must be Bool, got " ++ got.name
  | .whileGuard got => ascii "while guard must be Bool, got " ++ got.name
  | .conditionalGuard got => ascii "conditional guard must be Bool, got " ++ got.name
  | .conditionalArmsDiffer then_ else_ =>
    ascii "conditional branches differ: " ++ then_.name ++ ascii " and " ++ else_.name
  | .argumentType position callee wanted got =>
    ascii "argument " ++ Bytes.ofNat position ++ ascii " of " ++ callee ++ ascii " must be "
      ++ wanted.name ++ ascii ", got " ++ got.name
  | .argumentCount callee wanted got =>
    callee ++ ascii " takes " ++ Bytes.ofNat wanted ++ ascii " arguments, got " ++ Bytes.ofNat got
  | .badString cause => cause.message
  | .floatOverflow shown => ascii "float literal " ++ shown ++ ascii " does not fit in Float"
  | .intOverflow shown => ascii "integer literal " ++ shown ++ ascii " does not fit in Int"
  | .stringOutsideCall text =>
    ascii "string literal " ++ text ++ ascii " is only allowed as a call argument"
  | .unsupportedInitializer => ascii "unsupported initializer"
  | .assignToConstant name => ascii "cannot assign to constant " ++ name
  | .assignToFunction name => ascii "cannot assign to function " ++ name
  | .assignType got name wanted =>
    ascii "cannot assign " ++ got.name ++ ascii " to " ++ name ++ ascii " of type " ++ wanted.name
  | .constantCalled name => ascii "cannot call constant " ++ name
  | .variableCalled name => ascii "cannot call variable " ++ name
  | .unitFunctionAsValue name => ascii "function " ++ name ++ ascii " returns no value"
  | .valueFunctionAsStatement name =>
    ascii "function " ++ name ++ ascii " returns a value and cannot be called as a statement"
  | .functionAsValue name => ascii "function " ++ name ++ ascii " cannot be used as a value"
  | .unknownName name => ascii "unknown identifier " ++ name
  | .unknownOperator symbol => ascii "typecheck: unknown binary operator " ++ symbol

end Problem

structure Finding where
  place : Span
  problem : Problem
  deriving Repr, DecidableEq

def Finding.diagnostic (f : File) (finding : Finding) : Diagnostic :=
  .located f finding.place ((finding.problem.code?.map Code.name).getD []) finding.problem.message

end PZero.Typing
