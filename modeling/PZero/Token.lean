import PZero.Source

namespace PZero

namespace Token

inductive Kind
  | endOfFile | bad
  | ident | int | float | string
  | constKw | letKw | funKw | ifKw | elseKw | whileKw | returnKw | trueKw | falseKw
  | intType | floatType | boolType
  | openParen | closeParen | openBrace | closeBrace | comma | semicolon | colon | question
  | plus | minus | star | slash | bang | assign
  | equal | notEqual | less | lessEqual | greater | greaterEqual | andAnd | orOr
  deriving Repr, DecidableEq, Inhabited

def Kind.describe : Kind → Bytes
  | .endOfFile => ascii "end of file"
  | .bad => ascii "invalid token"
  | .ident => ascii "identifier"
  | .int => ascii "integer literal"
  | .float => ascii "float literal"
  | .string => ascii "string literal"
  | .constKw => ascii "'const'"
  | .letKw => ascii "'let'"
  | .funKw => ascii "'fun'"
  | .ifKw => ascii "'if'"
  | .elseKw => ascii "'else'"
  | .whileKw => ascii "'while'"
  | .returnKw => ascii "'return'"
  | .trueKw => ascii "'true'"
  | .falseKw => ascii "'false'"
  | .intType => ascii "'Int'"
  | .floatType => ascii "'Float'"
  | .boolType => ascii "'Bool'"
  | .openParen => ascii "'('"
  | .closeParen => ascii "')'"
  | .openBrace => ascii "'\x7b'"
  | .closeBrace => ascii "'\x7d'"
  | .comma => ascii "','"
  | .semicolon => ascii "';'"
  | .colon => ascii "':'"
  | .question => ascii "'?'"
  | .plus => ascii "'+'"
  | .minus => ascii "'-'"
  | .star => ascii "'*'"
  | .slash => ascii "'/'"
  | .bang => ascii "'!'"
  | .assign => ascii "'='"
  | .equal => ascii "'=='"
  | .notEqual => ascii "'!='"
  | .less => ascii "'<'"
  | .lessEqual => ascii "'<='"
  | .greater => ascii "'>'"
  | .greaterEqual => ascii "'>='"
  | .andAnd => ascii "'&&'"
  | .orOr => ascii "'||'"

def keywords : List (Bytes × Kind) :=
  [(ascii "const", .constKw), (ascii "let", .letKw), (ascii "fun", .funKw), (ascii "if", .ifKw),
    (ascii "else", .elseKw), (ascii "while", .whileKw), (ascii "return", .returnKw),
    (ascii "true", .trueKw), (ascii "false", .falseKw), (ascii "Int", .intType),
    (ascii "Float", .floatType), (ascii "Bool", .boolType)]

def wordKind (word : Bytes) : Kind := (keywords.lookup word).getD .ident

/-- Operators and punctuation, an operator before the shorter ones it starts with. -/
def symbols : List (Bytes × Kind) :=
  [(ascii "!=", .notEqual), (ascii "==", .equal), (ascii "<=", .lessEqual),
    (ascii ">=", .greaterEqual), (ascii "&&", .andAnd), (ascii "||", .orOr),
    (ascii "(", .openParen), (ascii ")", .closeParen), (ascii "\x7b", .openBrace),
    (ascii "\x7d", .closeBrace), (ascii ",", .comma), (ascii ";", .semicolon), (ascii ":", .colon),
    (ascii "?", .question), (ascii "+", .plus), (ascii "-", .minus), (ascii "*", .star),
    (ascii "/", .slash), (ascii "!", .bang), (ascii "=", .assign), (ascii "<", .less),
    (ascii ">", .greater)]

end Token

structure Token where
  kind : Token.Kind
  lexeme : Bytes
  span : Span
  deriving Repr, DecidableEq, Inhabited

end PZero
