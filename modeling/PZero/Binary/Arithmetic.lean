import PZero.Binary.Format

namespace PZero.Binary

def invalid : Nat := quietNan single true 0

def nanOf (x y : Datum) : Nat :=
  match x, y with
  | .nan negative payload, _ => quietNan single negative payload
  | _, .nan negative payload => quietNan single negative payload
  | _, _ => invalid

def signedInfinity (negative : Bool) : Nat := withSign single negative single.infinity

def signed (negative : Bool) (mantissa : Nat) : Int :=
  if negative then -mantissa else mantissa

/-- A sum that is exactly zero is positive, unless both operands are negative zeros. -/
def addSingle : Datum → Datum → Nat
  | .finite s a p, .finite t b q =>
    let least := min p q
    let sum := signed s (a * Nat.pow 2 (p - least).toNat)
      + signed t (b * Nat.pow 2 (q - least).toNat)
    if sum = 0 then withSign single (s && t) 0
    else round single (sum < 0) sum.natAbs 1 least
  | .infinite s, .infinite t => if s = t then signedInfinity s else invalid
  | .infinite s, .finite .. => signedInfinity s
  | .finite .., .infinite t => signedInfinity t
  | x, y => nanOf x y

def negateDatum : Datum → Datum
  | .finite s a p => .finite (!s) a p
  | .infinite s => .infinite (!s)
  | .nan s payload => .nan s payload

def mulSingle : Datum → Datum → Nat
  | .finite s a p, .finite t b q => round single (s != t) (a * b) 1 (p + q)
  | .infinite s, .infinite t => signedInfinity (s != t)
  | .infinite s, .finite t b _ => if b = 0 then invalid else signedInfinity (s != t)
  | .finite s a _, .infinite t => if a = 0 then invalid else signedInfinity (s != t)
  | x, y => nanOf x y

def divSingle : Datum → Datum → Nat
  | .finite s a p, .finite t b q =>
    if b = 0 then if a = 0 then invalid else signedInfinity (s != t)
    else round single (s != t) a b (p - q)
  | .infinite _, .infinite _ => invalid
  | .infinite s, .finite t _ _ => signedInfinity (s != t)
  | .finite s _ _, .infinite t => withSign single (s != t) 0
  | x, y => nanOf x y

/-- Operands and results are doubles. The operands are rounded to single precision first. -/
def viaSingle (op : Datum → Datum → Nat) (x y : UInt64) : UInt64 :=
  let operand (bits : UInt64) := decode single (convert double single bits.toNat)
  UInt64.ofNat (convert single double (op (operand x) (operand y)))

def add : UInt64 → UInt64 → UInt64 := viaSingle addSingle

def sub : UInt64 → UInt64 → UInt64 := viaSingle fun x y ↦ addSingle x (negateDatum y)

def mul : UInt64 → UInt64 → UInt64 := viaSingle mulSingle

def div : UInt64 → UInt64 → UInt64 := viaSingle divSingle

end PZero.Binary
