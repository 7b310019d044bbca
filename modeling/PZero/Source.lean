import PZero.Text.Utf8

namespace PZero

structure File where
  name : Bytes
  input : Bytes
  deriving Repr, DecidableEq

/-- The bytes from `start` up to, and without, `stop`. A span built by hand may lie outside its
file. -/
structure Span where
  start : Int
  stop : Int
  deriving Repr, DecidableEq, Inhabited

def Span.join (a b : Span) : Span := ⟨min a.start b.start, max a.stop b.stop⟩

def Span.join? : Option Span → Option Span → Option Span
  | some a, some b => some (a.join b)
  | some a, none => some a
  | none, b => b

namespace File

def clamp (f : File) (offset : Int) : Nat := min offset.toNat f.input.length

def behindNewlines (place : Nat) : Bytes → List Nat
  | [] => []
  | b :: rest =>
    if b = 10 then (place + 1) :: behindNewlines (place + 1) rest
    else behindNewlines (place + 1) rest

def lineStarts (f : File) : List Nat := 0 :: behindNewlines 0 f.input

/-- The first place from `low` on where a test holds, found by halving: the test must go on holding
once it holds. -/
def search (test : Nat → Bool) (low high : Nat) : Nat :=
  if low < high then
    let middle := (low + high) / 2
    if test middle then search test low middle else search test (middle + 1) high
  else low
termination_by high - low

def lineAt (f : File) (position : Nat) : Nat :=
  let starts := f.lineStarts
  search (fun i ↦ position < starts.getD i 0) 0 starts.length - 1

/-- Line and column of an offset. An offset inside a character has that character's column. -/
def lineCol (f : File) (offset : Int) : Nat × Nat :=
  let position := f.clamp offset
  let line := f.lineAt position
  let start := f.lineStarts.getD line 0
  (line + 1, 1 + Utf8.wholeWithin (position - start) 0 (f.input.drop start))

/-- The bytes a span covers, and nothing when it does not lie inside the file. -/
def slice (f : File) (s : Span) : Bytes :=
  if 0 ≤ s.start ∧ s.stop ≤ f.input.length ∧ s.start ≤ s.stop then
    (f.input.drop s.start.toNat).take (s.stop - s.start).toNat
  else []

end File

end PZero
