import PZero.Binary.Numeral
import PZero.Surface
import PZero.Typing.Problem

namespace PZero.Typing

def readInt? (text : Bytes) : Option Int :=
  let (negative, digits) :=
    match text with
    | 43 :: rest => (false, rest)
    | 45 :: rest => (true, rest)
    | _ => (false, text)
  if digits ≠ [] && digits.all Bytes.isDigit then
    some (if negative then -(Bytes.digitsValue digits : Int) else Bytes.digitsValue digits)
  else none

def shown (text : Bytes) (negative : Bool) : Bytes := if negative then 45 :: text else text

def intLiteral (text : Bytes) (negative : Bool) (place : Span) : Typed.Literal × List Finding :=
  match readInt? (shown text negative) with
  | some v =>
    if -0x80000000 ≤ v && v < 0x80000000 then (.int v, [])
    else (.int (v.bmod 0x100000000), [⟨place, .intOverflow (shown text negative)⟩])
  | none => (.int 0, [⟨place, .intOverflow (shown text negative)⟩])

/-- The value of a float literal, negated if asked. A text that is no number counts as zero. -/
def floatLiteral (text : Bytes) (negative : Bool) (place : Span) : Typed.Literal × List Finding :=
  match Binary.Numeral.read? (shown text negative) with
  | some n =>
    (.float (UInt64.ofNat (n.pattern Binary.double)),
      if n.overflows Binary.single then [⟨place, .floatOverflow (shown text negative)⟩] else [])
  | none => (.float 0, [])

def initializer : Surface.Expr → Typed.Literal × List Finding
  | .bool value _ => (.bool value, [])
  | .int text place => intLiteral text false place
  | .float text place => floatLiteral text false place
  | .unary op (.int text _) place => intLiteral text (op = .negate) place
  | .unary op (.float text _) place => floatLiteral text (op = .negate) place
  | .string text place => (.bool true, [⟨place, .stringOutsideCall text⟩])
  | e => (.bool true, [⟨e.span, .unsupportedInitializer⟩])

def initializerType : Surface.Expr → ValueType
  | .bool .. => .bool
  | .int .. => .int
  | .float .. => .float
  | .unary _ operand _ => initializerType operand
  | _ => .unknown

end PZero.Typing
