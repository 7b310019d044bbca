import PZero.Bytes

namespace PZero

inductive BinaryOp
  | divide | minus | plus | times
  | equal | greaterEqual | greater | lessEqual | less | notEqual
  | and | or
  deriving Repr, DecidableEq, Inhabited

namespace BinaryOp

def all : List BinaryOp :=
  [.divide, .minus, .plus, .times, .equal, .greaterEqual, .greater, .lessEqual, .less, .notEqual,
    .and, .or]

def symbol : BinaryOp → Bytes
  | .divide => ascii "/"
  | .minus => ascii "-"
  | .plus => ascii "+"
  | .times => ascii "*"
  | .equal => ascii "=="
  | .greaterEqual => ascii ">="
  | .greater => ascii ">"
  | .lessEqual => ascii "<="
  | .less => ascii "<"
  | .notEqual => ascii "!="
  | .and => ascii "&&"
  | .or => ascii "||"

def ofSymbol? (text : Bytes) : Option BinaryOp := all.find? (·.symbol = text)

def isArithmetic : BinaryOp → Bool
  | .divide | .minus | .plus | .times => true
  | _ => false

def level : BinaryOp → Nat
  | .or => 1
  | .and => 2
  | .equal | .notEqual | .less | .lessEqual | .greater | .greaterEqual => 3
  | .plus | .minus => 4
  | .times | .divide => 5

def isRelational (op : BinaryOp) : Bool := op.level = 3

end BinaryOp

inductive UnaryOp
  | not | negate | identity
  deriving Repr, DecidableEq, Inhabited

namespace UnaryOp

def symbol : UnaryOp → Bytes
  | .not => ascii "!"
  | .negate => ascii "-"
  | .identity => ascii "+"

/-- Any symbol but `!` and `-` leaves its operand as it is. -/
def ofSymbol (text : Bytes) : UnaryOp :=
  if text = ascii "!" then .not else if text = ascii "-" then .negate else .identity

end UnaryOp

end PZero
