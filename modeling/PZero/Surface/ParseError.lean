import PZero.Diagnostic
import PZero.Token

namespace PZero.Surface

inductive Wanted
  | name | functionName | parameterName
  | equals
  | semicolonAfterDeclaration | semicolonAfterReturn | semicolonAfterLocal | semicolonAfterCall
  | semicolonAfterAssignment
  | literalValue
  | openParenAfterFunctionName | closeParenAfterParameters | closeParenAfterArguments | closeParen
  | colonAfterParameter | colonInConditional
  | typeName
  | openFunctionBody | closeFunctionBody | closeBlock
  | finalReturn
  | callOrAssignment
  deriving Repr, DecidableEq

def Wanted.message : Wanted → Bytes
  | .name => ascii "expected identifier"
  | .functionName => ascii "expected function name"
  | .parameterName => ascii "expected parameter name"
  | .equals => ascii "expected `=`"
  | .semicolonAfterDeclaration => ascii "expected `;` after declaration"
  | .semicolonAfterReturn => ascii "expected `;` after return expression"
  | .semicolonAfterLocal => ascii "expected `;`"
  | .semicolonAfterCall => ascii "expected `;` after call"
  | .semicolonAfterAssignment => ascii "expected `;` after assignment"
  | .literalValue => ascii "expected literal value"
  | .openParenAfterFunctionName => ascii "expected `(` after function name"
  | .closeParenAfterParameters => ascii "expected `)` after parameters"
  | .closeParenAfterArguments => ascii "expected `)` after arguments"
  | .closeParen => ascii "expected `)`"
  | .colonAfterParameter => ascii "expected `:` after parameter name"
  | .colonInConditional => ascii "expected `:` in conditional expression"
  | .typeName => ascii "expected type `Int`, `Float`, or `Bool`"
  | .openFunctionBody => ascii "expected `\x7b` to start function body"
  | .closeFunctionBody => ascii "expected `\x7d` to end function body"
  | .closeBlock => ascii "expected `\x7d`"
  | .finalReturn => ascii "expected `return` at end of value function"
  | .callOrAssignment => ascii "expected `(` or `=` after identifier"

inductive ParseProblem
  | invalidToken (lexeme : Bytes)
  | wanted (what : Wanted)
  | wantedDeclaration (found : Token.Kind)
  | wantedStatement (found : Token.Kind)
  | wantedExpression (found : Token.Kind)
  | unexpectedReturn
  | chainedComparison (first : Bytes)
  /-- The reader went deeper than its bound; the bound of `Surface.parse` is never reached. -/
  | tooDeep
  deriving Repr, DecidableEq

def quoteLexeme (lexeme : Bytes) : Bytes :=
  let shown := if 20 < lexeme.length then lexeme.take 20 ++ ascii "..." else lexeme
  ascii "`" ++ shown ++ ascii "`"

def ParseProblem.message : ParseProblem → Bytes
  | .invalidToken lexeme => ascii "invalid token " ++ quoteLexeme lexeme
  | .wanted what => what.message
  | .wantedDeclaration found =>
    ascii "expected `const`, `let`, or `fun`, got " ++ found.describe
  | .wantedStatement found => ascii "expected statement, got " ++ found.describe
  | .wantedExpression found => ascii "expected expression, got " ++ found.describe
  | .unexpectedReturn => ascii "unexpected `return` in unit function"
  | .chainedComparison first =>
    ascii "comparison operators cannot be chained after `" ++ first ++ ascii "`"
  | .tooDeep => ascii "program too deep"

structure ParseError where
  place : Span
  problem : ParseProblem
  deriving Repr, DecidableEq

def ParseError.diagnostic (f : File) (e : ParseError) : Diagnostic :=
  .located f e.place [] e.problem.message

end PZero.Surface
