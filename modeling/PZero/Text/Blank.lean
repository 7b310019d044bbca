import PZero.Bytes

namespace PZero.Text

def blanks : List Bytes :=
  [[0x09], [0x0A], [0x0B], [0x0C], [0x0D], [0x20], [0xC2, 0x85], [0xC2, 0xA0], [0xE1, 0x9A, 0x80],
    [0xE2, 0x80, 0x80], [0xE2, 0x80, 0x81], [0xE2, 0x80, 0x82], [0xE2, 0x80, 0x83],
    [0xE2, 0x80, 0x84], [0xE2, 0x80, 0x85], [0xE2, 0x80, 0x86], [0xE2, 0x80, 0x87],
    [0xE2, 0x80, 0x88], [0xE2, 0x80, 0x89], [0xE2, 0x80, 0x8A], [0xE2, 0x80, 0xA8],
    [0xE2, 0x80, 0xA9], [0xE2, 0x80, 0xAF], [0xE2, 0x81, 0x9F], [0xE3, 0x80, 0x80]]

def stripFront (table : List Bytes) : (count : Nat) → Bytes → Bytes
  | 0, text => text
  | count + 1, text =>
    match table.find? (text.startsWith ·) with
    | some entry => stripFront table count (text.drop entry.length)
    | none => text

def trimStart (text : Bytes) : Bytes := stripFront blanks text.length text

def trimEnd (text : Bytes) : Bytes :=
  (stripFront (blanks.map List.reverse) text.length text.reverse).reverse

def trim (text : Bytes) : Bytes := trimEnd (trimStart text)

end PZero.Text
