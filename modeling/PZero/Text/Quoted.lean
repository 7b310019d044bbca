import PZero.Text.Printable
import PZero.Text.Utf8

namespace PZero.Text

def quoteChar (c : Nat) : Bytes :=
  if c = 34 then ascii "\\\""
  else if c = 92 then ascii "\\\\"
  else if isPrintable c then Utf8.encode c
  else if c = 7 then ascii "\\a"
  else if c = 8 then ascii "\\b"
  else if c = 12 then ascii "\\f"
  else if c = 10 then ascii "\\n"
  else if c = 13 then ascii "\\r"
  else if c = 9 then ascii "\\t"
  else if c = 11 then ascii "\\v"
  else if c < 32 || c = 127 then ascii "\\x" ++ Bytes.lowerHexWidth 2 c
  else if c < 0x10000 then ascii "\\u" ++ Bytes.lowerHexWidth 4 c
  else ascii "\\U" ++ Bytes.lowerHexWidth 8 c

/-- The text between the quotes. `pending` counts the bytes that are left of the character just
written. -/
def quoteBody (pending : Nat) : Bytes → Bytes
  | [] => []
  | b :: rest =>
    match pending with
    | p + 1 => quoteBody p rest
    | 0 =>
      match Utf8.front? (b :: rest) with
      | some (c, w) => quoteChar c ++ quoteBody (w - 1) rest
      | none => ascii "\\x" ++ Bytes.lowerHexWidth 2 b.toNat ++ quoteBody 0 rest

def quote (text : Bytes) : Bytes := 34 :: quoteBody 0 text ++ [34]

end PZero.Text
