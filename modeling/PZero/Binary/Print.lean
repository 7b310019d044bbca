import PZero.Binary.Format
import PZero.Bytes

namespace PZero.Binary

def minus (negative : Bool) : Bytes := if negative then ascii "-" else []

def padded (width : Nat) (n : Nat) : Bytes :=
  let digits := Bytes.ofNat n
  List.replicate (width - digits.length) 48 ++ digits

/-- Six places, a half rounded to the even digit. -/
def fixedSix (bits : UInt64) : Bytes :=
  match decode double bits.toNat with
  | .nan negative _ => minus negative ++ ascii "nan"
  | .infinite negative => minus negative ++ ascii "inf"
  | .finite negative mantissa exponent =>
    let (num, den) := scaleDown (mantissa * 1000000) 1 (-exponent)
    let n := roundDiv num den
    minus negative ++ Bytes.ofNat (n / 1000000) ++ ascii "." ++ padded 6 (n % 1000000)

def scaleTen (num den : Nat) : Int → Nat × Nat
  | .ofNat n => (num * Nat.pow 10 n, den)
  | .negSucc n => (num, den * Nat.pow 10 (n + 1))

def leadingPlace (num den : Nat) : Int :=
  if den ≤ num then ((Nat.toDigits 10 (num / den)).length : Int) - 1
  else
    let places := (Nat.toDigits 10 (den / num)).length
    if den = num * Nat.pow 10 (places - 1) then 1 - places else -places

/-- The numbers that round to a positive double lie between `low` and `high`, all in units of
`1 / den`; the ends count if the mantissa is even. -/
structure Rounding where
  low : Nat
  value : Nat
  high : Nat
  den : Nat
  closed : Bool

def rounding (mantissa : Nat) (exponent : Int) : Rounding :=
  let below := if mantissa = double.lead ∧ double.least < exponent then 1 else 2
  let scaled (n : Nat) := (scaleDown n 1 (2 - exponent)).1
  let den := (scaleDown 1 1 (2 - exponent)).2
  ⟨scaled (4 * mantissa - below), scaled (4 * mantissa), scaled (4 * mantissa + 2), den,
    mantissa % 2 = 0⟩

def Rounding.covers (r : Rounding) (n : Nat) (place : Int) : Bool :=
  let (num, scale) := scaleTen (n * r.den) 1 place
  let low := r.low * scale
  let high := r.high * scale
  if r.closed then low ≤ num && num ≤ high else low < num && num < high

/-- The nearest decimal on a grid that reads back, if one does: the neighbours of the value are the
only candidates. -/
def Rounding.onGrid (r : Rounding) (place : Int) : Option Nat :=
  let (num, den) := scaleTen r.value r.den (-place)
  let below := num / den
  let nearest := roundDiv num den
  let other := if nearest = below then below + 1 else below
  if r.covers nearest place then some nearest
  else if r.covers other place then some other
  else none

def Rounding.shortest (r : Rounding) : (tries : Nat) → (place : Int) → Nat × Int
  | 0, place => (roundDiv (scaleTen r.value r.den (-place)).1 (scaleTen r.value r.den (-place)).2,
      place)
  | tries + 1, place =>
    match r.onGrid place with
    | some n => (n, place)
    | none => r.shortest tries (place - 1)

def shortestDigits (mantissa : Nat) (exponent : Int) : Bytes × Int :=
  let r := rounding mantissa exponent
  let (n, place) := r.shortest 17 (leadingPlace r.value r.den)
  let digits := Bytes.ofNat n
  let kept := (digits.reverse.dropWhile (· = 48)).reverse
  (kept, place + (digits.length - 1 : Nat))

def exponentText (e : Int) : Bytes :=
  ascii (if e < 0 then "e-" else "e+") ++ padded 2 e.natAbs

/-- The fewest digits that read back; positional from `10 ^ -4` to below `10 ^ 6`. -/
def shortest (bits : UInt64) : Bytes :=
  match decode double bits.toNat with
  | .nan _ _ => ascii "NaN"
  | .infinite negative => ascii (if negative then "-Inf" else "+Inf")
  | .finite negative mantissa exponent =>
    minus negative ++
      if mantissa = 0 then ascii "0"
      else
        let (digits, first) := shortestDigits mantissa exponent
        if first < -4 || 6 ≤ first then
          let tail := digits.drop 1
          digits.take 1 ++ (if tail = [] then [] else 46 :: tail) ++ exponentText first
        else if first < 0 then
          ascii "0." ++ List.replicate (-first - 1).toNat 48 ++ digits
        else
          let whole := first.toNat + 1
          let shown := digits.take whole ++ List.replicate (whole - digits.length) 48
          let tail := digits.drop whole
          shown ++ (if tail = [] then [] else 46 :: tail)

end PZero.Binary
