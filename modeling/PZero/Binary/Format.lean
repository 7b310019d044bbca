
namespace PZero.Binary

/-- `precision` counts the bits of a full mantissa, the leading one included. -/
structure Format where
  precision : Nat
  exponentBits : Nat
  deriving Repr, DecidableEq

def single : Format := ⟨24, 8⟩

def double : Format := ⟨53, 11⟩

namespace Format

def least (f : Format) : Int := 3 - (Nat.pow 2 (f.exponentBits - 1) : Int) - f.precision

def lead (f : Format) : Nat := Nat.pow 2 (f.precision - 1)

/-- The pattern of positive infinity; patterns above it are not numbers. -/
def infinity (f : Format) : Nat := (Nat.pow 2 f.exponentBits - 1) * f.lead

def signBit (f : Format) : Nat := Nat.pow 2 f.exponentBits * f.lead

end Format

inductive Datum
  | finite (negative : Bool) (mantissa : Nat) (exponent : Int)
  | infinite (negative : Bool)
  | nan (negative : Bool) (payload : Nat)
  deriving Repr, DecidableEq

def decode (f : Format) (bits : Nat) : Datum :=
  let negative := f.signBit ≤ bits
  let field := bits / f.lead % Nat.pow 2 f.exponentBits
  let fraction := bits % f.lead
  if field = Nat.pow 2 f.exponentBits - 1 then
    if fraction = 0 then .infinite negative else .nan negative fraction
  else if field = 0 then .finite negative fraction f.least
  else .finite negative (f.lead + fraction) (f.least + (field - 1))

def withSign (f : Format) (negative : Bool) (magnitude : Nat) : Nat :=
  if negative then f.signBit + magnitude else magnitude

def roundDiv (num den : Nat) : Nat :=
  let quotient := num / den
  let twice := 2 * (num % den)
  if twice < den then quotient
  else if den < twice then quotient + 1
  else quotient + quotient % 2

def scaleDown (num den : Nat) : Int → Nat × Nat
  | .ofNat n => (num, den * Nat.pow 2 n)
  | .negSucc n => (num * Nat.pow 2 (n + 1), den)

def exponentFor (f : Format) (num den : Nat) : Int :=
  let guess : Int := (Nat.log2 num : Int) - Nat.log2 den - f.precision
  let (a, b) := scaleDown num den guess
  max f.least (if a / b < Nat.pow 2 f.precision then guess else guess + 1)

/-- The pattern of the magnitude nearest to `num / den`; a half goes to the even mantissa, and what
lies beyond the largest number becomes infinite. -/
def roundMagnitude (f : Format) (num den : Nat) : Nat :=
  if num = 0 then 0
  else
    let exponent := exponentFor f num den
    let (a, b) := scaleDown num den exponent
    min f.infinity ((exponent - f.least).toNat * f.lead + roundDiv a b)

def round (f : Format) (negative : Bool) (num den : Nat) (exponent : Int) : Nat :=
  let (a, b) := scaleDown num den (-exponent)
  withSign f negative (roundMagnitude f a b)

/-- A number that is not a number keeps its sign and the leading bits of its payload, and becomes
quiet. -/
def quietNan (f : Format) (negative : Bool) (payload : Nat) : Nat :=
  withSign f negative (f.infinity + (payload ||| f.lead / 2))

def convert (source target : Format) (bits : Nat) : Nat :=
  match decode source bits with
  | .finite negative mantissa exponent => round target negative mantissa 1 exponent
  | .infinite negative => withSign target negative target.infinity
  | .nan negative payload =>
    quietNan target negative (payload * target.lead / source.lead)

def toSingle (bits : UInt64) : UInt64 :=
  UInt64.ofNat (convert single double (convert double single bits.toNat))

def isNan (bits : UInt64) : Bool :=
  match decode double bits.toNat with
  | .nan _ _ => true
  | _ => false

/-- Numbers in their order; both zeros have the same place. -/
def order (bits : UInt64) : Int :=
  if bits.toNat < double.signBit then bits.toNat else -(bits.toNat - double.signBit : Nat)

end PZero.Binary
