import PZero.Path

namespace PZero.Symbol

def isPlainStart (b : UInt8) : Bool :=
  b == 45 || b == 36 || b == 46 || b == 95 || Bytes.isLetter b

def isPlain : Bytes → Bool
  | [] => false
  | b :: rest =>
    (b :: rest).all Bytes.isDigit
      || isPlainStart b && rest.all fun c ↦ isPlainStart c || Bytes.isDigit c

/-- A byte inside quotes: a backslash and two hexadecimal digits stand for a quote, a backslash and
everything that is not printable ASCII. -/
def escapeByte (b : UInt8) : Bytes :=
  if b ≠ 34 ∧ b ≠ 92 ∧ 0x20 ≤ b ∧ b ≤ 0x7E then [b] else 92 :: Bytes.upperHex b

def escape (text : Bytes) : Bytes := text.flatMap escapeByte

def spell (name : Bytes) : Bytes :=
  if isPlain name then name else ascii "\"" ++ escape name ++ ascii "\""

def atModule (name : Bytes) : Bytes := ascii "@" ++ spell name

def inFunction (name : Bytes) : Bytes := ascii "%" ++ spell name

/-- The name of a pooled string; the leading dot keeps it apart from every identifier. -/
def pooled (n : Int) : Bytes := ascii ".str." ++ Bytes.ofInt n

/-- The name of the value that a parameter receives; the ending keeps it apart from every label. -/
def parameter (name : Bytes) : Bytes := name ++ ascii ".p"

def moduleOf (file : Bytes) : Bytes :=
  let name := Path.withoutExtension (Path.base file)
  if name = [] ∨ name = ascii "." then ascii "p0" else name

end PZero.Symbol
