import PZero.Binary.Format
import PZero.Bytes

namespace PZero.Binary

/-- What a numeral denotes, exactly. `ratio` is `num / den`. -/
inductive Numeral
  | nan
  | infinite (negative : Bool)
  | ratio (negative : Bool) (num den : Nat)
  deriving Repr, DecidableEq

namespace Numeral

def lowered (text : Bytes) : Bytes := text.map Bytes.lowerByte

def takeSign : Bytes → Bool × Bytes
  | 43 :: rest => (false, rest)
  | 45 :: rest => (true, rest)
  | text => (false, text)

def hexDigit? (b : UInt8) : Option Nat :=
  if Bytes.isDigit b then some (b.toNat - 48)
  else
    let c := Bytes.lowerByte b
    if 97 ≤ c && c ≤ 102 then some (c.toNat - 87) else none

def digit? (base : Nat) (b : UInt8) : Option Nat :=
  if base = 16 then hexDigit? b else if Bytes.isDigit b then some (b.toNat - 48) else none

/-- The digits before the exponent: their value without the point, how many stand behind the point,
whether there was a digit at all, and the rest of the text. -/
structure Digits where
  value : Nat
  places : Nat
  seen : Bool
  rest : Bytes

def readDigits (base : Nat) (afterPoint : Bool) (d : Digits) : Bytes → Digits
  | [] => { d with rest := [] }
  | b :: rest =>
    if b = 95 then readDigits base afterPoint d rest
    else if b = 46 then
      if afterPoint then { d with rest := b :: rest } else readDigits base true d rest
    else
      match digit? base b with
      | some v =>
        readDigits base afterPoint
          { d with
            value := d.value * base + v
            places := if afterPoint then d.places + 1 else d.places
            seen := true } rest
      | none => { d with rest := b :: rest }

/-- The digits of an exponent. Once it has passed ten thousand further digits do not count: the
number is out of every range by then. -/
def readExponentDigits : Nat → Bytes → Nat × Bytes
  | e, [] => (e, [])
  | e, b :: rest =>
    if b = 95 then readExponentDigits e rest
    else if Bytes.isDigit b then
      readExponentDigits (if e < 10000 then e * 10 + (b.toNat - 48) else e) rest
    else (e, b :: rest)

/-- An exponent part with the given mark. Without the mark the exponent is zero; a mark must be
followed by a digit, after an optional sign. -/
def readExponent? (mark : UInt8) : Bytes → Option (Option Int × Bytes)
  | [] => some (none, [])
  | b :: rest =>
    if Bytes.lowerByte b = mark then
      let (negative, digits) := takeSign rest
      match digits with
      | [] => none
      | d :: _ =>
        if Bytes.isDigit d then
          let (e, rest) := readExponentDigits 0 digits
          some (some (if negative then -(e : Int) else e), rest)
        else none
    else some (none, b :: rest)

def underscoresFit (hex : Bool) (digitBefore : Bool) : Bytes → Bool
  | [] => true
  | 95 :: rest =>
    digitBefore &&
      match rest with
      | b :: _ =>
        (Bytes.isDigit b || hex && (hexDigit? b).isSome) && underscoresFit hex false rest
      | [] => false
  | b :: rest =>
    underscoresFit hex (Bytes.isDigit b || hex && (hexDigit? b).isSome) rest

/-- Beyond these decimal exponents every format overflows or every digit vanishes. -/
def decimalRatio (negative : Bool) (value : Nat) (exponent : Int) : Numeral :=
  let size := exponent + (Nat.toDigits 10 value).length
  if value = 0 || size < -400 then .ratio negative 0 1
  else if 400 < size then .ratio negative (Nat.pow 10 400) 1
  else
    match exponent with
    | .ofNat n => .ratio negative (value * Nat.pow 10 n) 1
    | .negSucc n => .ratio negative value (Nat.pow 10 (n + 1))

def binaryRatio (negative : Bool) (value : Nat) (exponent : Int) : Numeral :=
  let (num, den) := scaleDown value 1 (-exponent)
  .ratio negative num den

def readNumber? (text : Bytes) : Option Numeral :=
  let (negative, unsigned) := takeSign text
  let hex := 3 ≤ unsigned.length && (lowered (unsigned.take 2)) == ascii "0x"
  let base := if hex then 16 else 10
  let d := readDigits base false ⟨0, 0, false, []⟩ (if hex then unsigned.drop 2 else unsigned)
  if !d.seen then none
  else
    match readExponent? (if hex then 112 else 101) d.rest with
    | none => none
    | some (exponent?, rest) =>
      let spaced := !text.contains 95 ||
        underscoresFit hex hex (if hex then unsigned.drop 2 else unsigned)
      if rest ≠ [] || !spaced then none
      else if hex then
        exponent?.map fun e ↦ binaryRatio negative d.value (e - 4 * d.places)
      else some (decimalRatio negative d.value (exponent?.getD 0 - d.places))

/-- A text has at most one point and an optional exponent. `nan` takes no sign, hexadecimal numerals
must have a binary exponent, and underscores may stand between digits. -/
def read? (text : Bytes) : Option Numeral :=
  let (negative, unsigned) := takeSign text
  if lowered unsigned = ascii "inf" || lowered unsigned = ascii "infinity" then
    some (.infinite negative)
  else if lowered text = ascii "nan" then some .nan
  else readNumber? text

def pattern (f : Format) : Numeral → Nat
  | .nan => f.infinity + f.lead / 2 + 1
  | .infinite negative => withSign f negative f.infinity
  | .ratio negative num den => withSign f negative (roundMagnitude f num den)

def overflows (f : Format) : Numeral → Bool
  | .ratio _ num den => roundMagnitude f num den = f.infinity
  | _ => false

end Numeral

end PZero.Binary
