import PZero.Token

namespace PZero.Token

def isWordStart (b : UInt8) : Bool := b = 95 || Bytes.isLetter b

def isWordByte (b : UInt8) : Bool := isWordStart b || Bytes.isDigit b

def digitsWidth (text : Bytes) : Nat := (text.takeWhile Bytes.isDigit).length

def fractionWidth : Bytes → Nat
  | 46 :: rest => if digitsWidth rest = 0 then 0 else 1 + digitsWidth rest
  | _ => 0

def signWidth : Bytes → Nat
  | b :: _ => if b = 43 || b = 45 then 1 else 0
  | [] => 0

def exponentWidth : Bytes → Nat
  | b :: rest =>
    if b = 101 || b = 69 then
      let sign := signWidth rest
      let digits := digitsWidth (rest.drop sign)
      if digits = 0 then 0 else 1 + sign + digits
    else 0
  | [] => 0

/-- Where a string literal ends, counted from behind its opening quote, and whether a quote ends
it. A backslash takes the byte after it along, whatever that is; an unescaped newline or the end of
the text cuts the literal off. -/
def stringWidth : Bytes → Bool × Nat
  | [] => (false, 0)
  | b :: rest =>
    if b = 10 then (false, 1)
    else if b = 34 then (true, 1)
    else if b = 92 then
      match rest with
      | [] => (false, 1)
      | _ :: rest => let (closed, width) := stringWidth rest; (closed, width + 2)
    else let (closed, width) := stringWidth rest; (closed, width + 1)

/-- The width of the rest of a block comment that is open `depth` times. Block comments nest. -/
def commentWidth (depth : Nat) : Bytes → Option Nat
  | 47 :: 42 :: rest => (commentWidth (depth + 1) rest).map (· + 2)
  | 42 :: 47 :: rest => if depth ≤ 1 then some 2 else (commentWidth (depth - 1) rest).map (· + 2)
  | _ :: rest => (commentWidth depth rest).map (· + 1)
  | [] => none

inductive Front
  | gap (width : Nat)
  | token (kind : Kind) (lexeme : Bytes) (width : Nat)
  deriving Repr, DecidableEq

def Front.taken (kind : Kind) (text : Bytes) (width : Nat) : Front :=
  .token kind (text.take width) width

def frontNumber (text : Bytes) : Front :=
  let whole := digitsWidth text
  let fraction := fractionWidth (text.drop whole)
  let exponent := exponentWidth (text.drop (whole + fraction))
  .taken (if fraction + exponent = 0 then .int else .float) text (whole + fraction + exponent)

def frontString (text : Bytes) : Front :=
  let (closed, width) := stringWidth (text.drop 1)
  .taken (if closed then .string else .bad) text (1 + width)

/-- The longest symbol at the front. The lexeme of a byte that starts no token is its code
point. -/
def frontSymbol (b : UInt8) (text : Bytes) : Front :=
  match symbols.find? fun (spelling, _) ↦ text.startsWith spelling with
  | some (spelling, kind) => .token kind spelling spelling.length
  | none => .token .bad (Utf8.ofByte b) 1

/-- A block comment that is never closed is one bad token up to the end of the text. -/
def frontComment (text : Bytes) : Front :=
  match commentWidth 1 (text.drop 2) with
  | some width => .gap (2 + width)
  | none => .taken .bad text text.length

def front (b : UInt8) (text : Bytes) : Front :=
  if b ≤ 32 then .gap 1
  else if text.startsWith (ascii "//") then .gap (text.takeWhile (· != 10)).length
  else if text.startsWith (ascii "/*") then frontComment text
  else if isWordStart b then
    let word := text.takeWhile isWordByte
    .token (wordKind word) word word.length
  else if Bytes.isDigit b then frontNumber text
  else if b = 34 then frontString text
  else frontSymbol b text

def scanFrom : (bound : Nat) → (offset : Nat) → Bytes → List Token
  | bound + 1, offset, b :: rest =>
    match front b (b :: rest) with
    | .gap width => scanFrom bound (offset + width) ((b :: rest).drop width)
    | .token kind lexeme width =>
      ⟨kind, lexeme, offset, (offset + width : Nat)⟩
        :: scanFrom bound (offset + width) ((b :: rest).drop width)
  | _, offset, _ => [⟨.endOfFile, [], offset, offset⟩]

def scan (text : Bytes) : List Token := scanFrom text.length 0 text

end PZero.Token
