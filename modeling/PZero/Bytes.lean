
namespace PZero

/-- Texts, names, paths and what the tools print need not be valid UTF-8. -/
abbrev Bytes := List UInt8

instance : LawfulBEq Bytes := inferInstance

def ascii (text : String) : Bytes :=
  text.toList.map fun c ↦ UInt8.ofNat c.toNat

namespace Bytes

def ofNat (n : Nat) : Bytes :=
  (Nat.toDigits 10 n).map fun c ↦ UInt8.ofNat c.toNat

def ofInt : Int → Bytes
  | .ofNat n => ofNat n
  | .negSucc n => 45 :: ofNat (n + 1)

def upperDigit (n : Nat) : UInt8 :=
  UInt8.ofNat (if n < 10 then 48 + n else 55 + n)

def upperHex (b : UInt8) : Bytes :=
  [upperDigit (b.toNat / 16), upperDigit (b.toNat % 16)]

def upperHexWidth : Nat → Nat → Bytes
  | 0, _ => []
  | width + 1, n => upperHexWidth width (n / 16) ++ [upperDigit (n % 16)]

def lowerHexWidth : Nat → Nat → Bytes
  | 0, _ => []
  | width + 1, n =>
    let digit := n % 16
    lowerHexWidth width (n / 16) ++ [UInt8.ofNat (if digit < 10 then 48 + digit else 87 + digit)]

def isDigit (b : UInt8) : Bool := 48 ≤ b && b ≤ 57

def isLetter (b : UInt8) : Bool := 97 ≤ b && b ≤ 122 || 65 ≤ b && b ≤ 90

def digitsValue (digits : Bytes) : Nat :=
  digits.foldl (fun n b ↦ n * 10 + (b.toNat - 48)) 0

def splitAtByte (sep : UInt8) : Bytes → List Bytes
  | [] => [[]]
  | b :: rest =>
    if b = sep then [] :: splitAtByte sep rest
    else
      match splitAtByte sep rest with
      | [] => [[b]]
      | part :: parts => (b :: part) :: parts

def cutAtByte (sep : UInt8) (text : Bytes) : Option (Bytes × Bytes) :=
  match text.dropWhile (· != sep) with
  | [] => none
  | _ :: after => some (text.takeWhile (· != sep), after)

def startsWith (text front : Bytes) : Bool := front.isPrefixOf text

def endsWith (text back : Bytes) : Bool := back.isSuffixOf text

/-- The text without a given ending, or unchanged when it ends differently. -/
def dropEnd (text back : Bytes) : Bytes :=
  if endsWith text back then text.take (text.length - back.length) else text

def lowerByte (b : UInt8) : UInt8 := if 65 ≤ b && b ≤ 90 then b + 32 else b

end Bytes

end PZero
