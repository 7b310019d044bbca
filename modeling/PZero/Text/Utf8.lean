import PZero.Bytes

namespace PZero.Utf8

def isContinuation (b : UInt8) : Bool := 0x80 ≤ b && b ≤ 0xBF

/-- The bytes that may follow a leading byte: shortest forms only, no surrogates, nothing above
U+10FFFF. -/
def isSecond (lead second : UInt8) : Bool :=
  if lead = 0xE0 then 0xA0 ≤ second && second ≤ 0xBF
  else if lead = 0xED then 0x80 ≤ second && second ≤ 0x9F
  else if lead = 0xF0 then 0x90 ≤ second && second ≤ 0xBF
  else if lead = 0xF4 then 0x80 ≤ second && second ≤ 0x8F
  else isContinuation second

def front? : Bytes → Option (Nat × Nat)
  | [] => none
  | a :: rest =>
    if a < 0x80 then some (a.toNat, 1)
    else if 0xC2 ≤ a && a ≤ 0xDF then
      match rest with
      | b :: _ =>
        if isSecond a b then some ((a.toNat - 0xC0) * 64 + (b.toNat - 0x80), 2) else none
      | [] => none
    else if 0xE0 ≤ a && a ≤ 0xEF then
      match rest with
      | b :: c :: _ =>
        if isSecond a b && isContinuation c then
          some (((a.toNat - 0xE0) * 64 + (b.toNat - 0x80)) * 64 + (c.toNat - 0x80), 3)
        else none
      | _ => none
    else if 0xF0 ≤ a && a ≤ 0xF4 then
      match rest with
      | b :: c :: d :: _ =>
        if isSecond a b && isContinuation c && isContinuation d then
          some ((((a.toNat - 0xF0) * 64 + (b.toNat - 0x80)) * 64 + (c.toNat - 0x80)) * 64
            + (d.toNat - 0x80), 4)
        else none
      | _ => none
    else none

/-- The number of bytes that count as one character at the front of a nonempty text: a byte that
starts no well-formed character counts alone. -/
def width (text : Bytes) : Nat :=
  match front? text with
  | some (_, w) => w
  | none => 1

theorem one_le_width (text : Bytes) : 1 ≤ width text := by
  unfold width front?
  cases text with
  | nil => simp
  | cons a rest => grind

def encode (c : Nat) : Bytes :=
  if c < 0x80 then [UInt8.ofNat c]
  else if c < 0x800 then [UInt8.ofNat (0xC0 + c / 64), UInt8.ofNat (0x80 + c % 64)]
  else if c < 0x10000 then
    [UInt8.ofNat (0xE0 + c / 4096), UInt8.ofNat (0x80 + c / 64 % 64), UInt8.ofNat (0x80 + c % 64)]
  else
    [UInt8.ofNat (0xF0 + c / 262144), UInt8.ofNat (0x80 + c / 4096 % 64),
      UInt8.ofNat (0x80 + c / 64 % 64), UInt8.ofNat (0x80 + c % 64)]

def ofByte (b : UInt8) : Bytes := encode b.toNat

/-- How many characters of a text, read from its start, end within its first `bound` bytes.
`pending` counts the bytes that are left of the character being read. -/
def wholeWithin (bound pending : Nat) : Bytes → Nat
  | [] => 0
  | b :: rest =>
    match pending with
    | p + 1 => wholeWithin bound p rest
    | 0 =>
      let w := width (b :: rest)
      if bound < w then 0 else 1 + wholeWithin (bound - w) (w - 1) rest

end PZero.Utf8
