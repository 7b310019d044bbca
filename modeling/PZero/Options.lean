import PZero.Toolchain

namespace PZero

inductive Engine
  | compile | interpret
  deriving Repr, DecidableEq

structure Options where
  engine : Engine
  mode : Bytes
  outDir : Bytes
  jobs : Int
  force : Bool
  keepLL : Bool
  verify : Bool
  verbose : Bool
  files : List Bytes
  programArgs : List Bytes
  deriving Repr, DecidableEq

namespace Options

def initial : Options := ⟨.compile, [], [], 0, false, false, false, false, [], []⟩

inductive CountError
  | empty | nonDigit | overflow
  deriving Repr, DecidableEq

def CountError.message : CountError → Bytes
  | .empty => ascii "empty"
  | .nonDigit => ascii "non-digit"
  | .overflow => ascii "overflow"

/-- Goes on with a count, digit by digit, in words of 64 bits. A word that is not positive after a
digit is taken for an overflow. -/
def countFrom (n : Int) : Bytes → Except CountError Int
  | [] => .ok n
  | b :: rest =>
    if Bytes.isDigit b then
      let n := (n * 10 + (b.toNat - 48 : Nat)).bmod 0x10000000000000000
      if n ≤ 0 then .error .overflow else countFrom n rest
    else .error .nonDigit

def count (text : Bytes) : Except CountError Int :=
  if text = [] then .error .empty else countFrom 0 text

inductive Error
  | unknownFlag (arg : Bytes)
  | missingValue (flag : Bytes)
  | unknownEngine (value : Bytes)
  | unknownMode (message : Bytes)
  | emptyValue (flag : Bytes)
  | badCount (flag value : Bytes) (error : CountError)
  deriving Repr, DecidableEq

def Error.message : Error → Bytes
  | .unknownFlag arg => ascii "unknown flag: " ++ arg
  | .missingValue flag => ascii "missing value for " ++ flag
  | .unknownEngine value => ascii "unknown engine: " ++ Text.quote value
  | .unknownMode message => message
  | .emptyValue flag => ascii "empty value for " ++ flag
  | .badCount flag value error =>
    ascii "invalid " ++ flag ++ ascii " value " ++ Text.quote value ++ ascii ": " ++ error.message

def switch? (arg : Bytes) : Option (Options → Options) :=
  if arg = ascii "--interp" then some fun o ↦ { o with engine := .interpret }
  else if arg = ascii "--compile" then some fun o ↦ { o with engine := .compile }
  else if arg = ascii "--force" ∨ arg = ascii "-f" then some fun o ↦ { o with force := true }
  else if arg = ascii "--keep-ll" then some fun o ↦ { o with keepLL := true }
  else if arg = ascii "--verify" then some fun o ↦ { o with verify := true }
  else if arg = ascii "-v" ∨ arg = ascii "--verbose" then some fun o ↦ { o with verbose := true }
  else none

def valuedFlags : List Bytes :=
  ["--engine", "--mode", "--out-dir", "-o", "--jobs", "-j"].map ascii

def assign (o : Options) (flag value : Bytes) : Except Error Options :=
  if flag = ascii "--engine" then
    if value = ascii "compile" then .ok { o with engine := .compile }
    else if value = ascii "interp" then .ok { o with engine := .interpret }
    else .error (.unknownEngine value)
  else if flag = ascii "--mode" then
    match Mode.parse value with
    | .ok _ => .ok { o with mode := value }
    | .error message => .error (.unknownMode message)
  else if flag = ascii "--out-dir" ∨ flag = ascii "-o" then
    if value = [] then .error (.emptyValue flag) else .ok { o with outDir := value }
  else
    match count value with
    | .ok n => .ok { o with jobs := n }
    | .error e => .error (.badCount flag value e)

def splitValue (arg : Bytes) : Bytes × Option Bytes :=
  match Bytes.cutAtByte 61 arg with
  | some (flag, value) => (flag, some value)
  | none => (arg, none)

/-- Reads arguments from left to right. What follows `--` belongs to the program that is run. -/
def parseFrom (o : Options) : List Bytes → Except Error Options
  | [] => .ok o
  | arg :: rest =>
    if arg = ascii "--" then .ok { o with programArgs := rest }
    else
      match switch? arg with
      | some change => parseFrom (change o) rest
      | none =>
        let (flag, value) := splitValue arg
        if flag ∈ valuedFlags then
          match value, rest with
          | some value, rest => do
            let o ← o.assign flag value
            parseFrom o rest
          | none, [] => .error (.missingValue flag)
          | none, value :: rest => do
            let o ← o.assign flag value
            parseFrom o rest
        else if Bytes.startsWith arg (ascii "-") then .error (.unknownFlag arg)
        else parseFrom { o with files := o.files ++ [arg] } rest

def parse (args : List Bytes) : Except Error Options := parseFrom initial args

end Options

end PZero
