import PZero.Text.Utf8

namespace PZero.StringLiteral

inductive Error
  | notQuoted
  | newline
  | danglingEscape
  | unknownEscape (byte : UInt8)
  deriving Repr, DecidableEq

def Error.message : Error → Bytes
  | .notQuoted => ascii "invalid string literal"
  | .newline => ascii "newline in string literal"
  | .danglingEscape => ascii "invalid escape at end of string"
  | .unknownEscape byte => ascii "invalid escape sequence \\" ++ Utf8.ofByte byte

def escaped? (b : UInt8) : Option UInt8 :=
  if b = 110 then some 10
  else if b = 114 then some 13
  else if b = 116 then some 9
  else if b = 48 then some 0
  else if b = 34 then some 34
  else if b = 92 then some 92
  else none

def unescape : Bytes → Except Error Bytes
  | [] => .ok []
  | b :: rest =>
    if b = 10 then .error .newline
    else if b = 92 then
      match rest with
      | [] => .error .danglingEscape
      | e :: rest =>
        match escaped? e with
        | some c => (unescape rest).map (c :: ·)
        | none => .error (.unknownEscape e)
    else (unescape rest).map (b :: ·)

def decode (literal : Bytes) : Except Error Bytes :=
  if 2 ≤ literal.length && literal.head? = some 34 && literal.getLast? = some 34 then
    unescape ((literal.drop 1).dropLast)
  else .error .notQuoted

end PZero.StringLiteral
