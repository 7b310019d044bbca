import PZero.Toolchain

namespace PZero

/-- Without a path the configuration is the usual one. An empty output directory stands for that of
the source, and no jobs for as many as there are processors. -/
structure Manifest where
  path : Bytes
  tools : Tools
  mode : Mode
  outDir : Bytes
  keepLL : Bool
  jobs : Int
  verify : Bool
  deriving Repr, DecidableEq

namespace Manifest

def fileName : Bytes := ascii "p0c.toml"

def usual : Manifest := ⟨[], .usual, .native, [], false, 0, false⟩

inductive Problem
  | notAssignment (line : Bytes)
  | badMode (value : Bytes)
  | badTruth (key value : Bytes)
  | badJobs (value : Bytes)
  deriving Repr, DecidableEq

def Problem.message : Problem → Bytes
  | .notAssignment line => ascii "invalid line: " ++ Text.quote line
  | .badMode value =>
    ascii "build.mode must be \"llvm\" or \"native\", got " ++ Text.quote value
  | .badTruth key value =>
    ascii "build." ++ key ++ ascii ": strconv.ParseBool: parsing " ++ Text.quote value
      ++ ascii ": invalid syntax"
  | .badJobs value => ascii "build.jobs must be a non-negative integer, got " ++ value

inductive Error
  | unreadable (error : FileError)
  | badLine (path : Bytes) (number : Nat) (problem : Problem)
  | lineTooLong
  deriving Repr, DecidableEq

def Error.message : Error → Bytes
  | .unreadable error => error.message
  | .badLine path number problem =>
    path ++ ascii ":" ++ Bytes.ofNat number ++ ascii ": " ++ problem.message
  | .lineTooLong => ascii "bufio.Scanner: token too long"

/-- A line of this length or more is not read. -/
def longestLine : Nat := 65536

def lines (text : Bytes) : List Bytes :=
  let parts := Bytes.splitAtByte 10 text
  if parts.getLast? = some [] then parts.dropLast else parts

def content (line : Bytes) : Bytes :=
  Text.trim ((Bytes.dropEnd line (ascii "\r")).takeWhile (· != 35))

def heading? (line : Bytes) : Option Bytes :=
  if Bytes.startsWith line (ascii "[") && Bytes.endsWith line (ascii "]") then
    some (Text.trim ((line.drop 1).take (line.length - 2)))
  else none

def assignment? (line : Bytes) : Option (Bytes × Bytes) :=
  match Bytes.cutAtByte 61 line with
  | none => none
  | some (before, after) =>
    let key := Text.trim before
    let value := Text.trim after
    if key = [] ∨ value = [] then none else some (key, value)

def unquote (value : Bytes) : Bytes :=
  if 2 ≤ value.length && Bytes.startsWith value (ascii "\"")
      && Bytes.endsWith value (ascii "\"") then
    (value.drop 1).take (value.length - 2)
  else value

def truth? (value : Bytes) : Option Bool :=
  if value ∈ ["1", "t", "T", "TRUE", "true", "True"].map ascii then some true
  else if value ∈ ["0", "f", "F", "FALSE", "false", "False"].map ascii then some false
  else none

def integer? (value : Bytes) : Option Int :=
  let (negative, digits) :=
    match value with
    | 45 :: rest => (true, rest)
    | 43 :: rest => (false, rest)
    | _ => (false, value)
  if digits = [] || !digits.all Bytes.isDigit then none
  else
    let n : Int := Bytes.digitsValue digits
    let n := if negative then -n else n
    if -0x8000000000000000 ≤ n ∧ n < 0x8000000000000000 then some n else none

def set (m : Manifest) (section_ key value : Bytes) : Except Problem Manifest :=
  let truth (change : Bool → Manifest) : Except Problem Manifest :=
    match truth? value with
    | some b => .ok (change b)
    | none => .error (.badTruth key value)
  if section_ = ascii "tools" then
    let text := unquote value
    if key = ascii "clang" then .ok { m with tools.clang := text }
    else if key = ascii "llvm_as" then .ok { m with tools.llvmAs := text }
    else if key = ascii "llvm_link" then .ok { m with tools.llvmLink := text }
    else if key = ascii "lli" then .ok { m with tools.lli := text }
    else .ok m
  else if section_ = ascii "build" then
    if key = ascii "mode" then
      match Mode.ofName (unquote value) with
      | .unknown name => .error (.badMode name)
      | mode => .ok { m with mode }
    else if key = ascii "out_dir" then .ok { m with outDir := unquote value }
    else if key = ascii "keep_ll" then truth fun b ↦ { m with keepLL := b }
    else if key = ascii "verify" then truth fun b ↦ { m with verify := b }
    else if key = ascii "jobs" then
      match integer? value with
      | some n => if n < 0 then .error (.badJobs value) else .ok { m with jobs := n }
      | none => .error (.badJobs value)
    else .ok m
  else .ok m

def readLines (m : Manifest) (section_ : Bytes) (number : Nat) :
    List Bytes → Except Error Manifest
  | [] => .ok m
  | raw :: rest =>
    if longestLine ≤ raw.length then .error .lineTooLong
    else
      let line := content raw
      let fail (p : Problem) : Except Error Manifest := .error (.badLine m.path number p)
      if line = [] then readLines m section_ (number + 1) rest
      else
        match heading? line with
        | some name => readLines m name (number + 1) rest
        | none =>
          match assignment? line with
          | none => fail (.notAssignment line)
          | some (key, value) =>
            match m.set section_ key value with
            | .ok m => readLines m section_ (number + 1) rest
            | .error p => fail p

/-- A relative output directory starts at the directory of the file. -/
def placeOutDir (m : Manifest) : Manifest :=
  if m.outDir = [] ∨ Path.isAbsolute m.outDir then m
  else { m with outDir := Path.below (Path.directory m.path) m.outDir }

def parse (path text : Bytes) : Except Error Manifest := do
  let m ← readLines { usual with path } [] 1 (lines text)
  return m.placeOutDir

def load (d : Disk) (path : Bytes) : Except Error Manifest :=
  match d.read path with
  | .ok text => parse path text
  | .error e => .error (.unreadable e)

def search (d : Disk) : (bound : Nat) → (directory : Bytes) → Except Error Manifest
  | 0, _ => .ok usual
  | bound + 1, directory =>
    let path := Path.below directory fileName
    match d.stat path with
    | .ok _ => load d path
    | .error _ =>
      let parent := Path.directory directory
      if parent = directory then .ok usual else search d bound parent

def find (d : Disk) (directory : Bytes) : Except Error Manifest :=
  let start := d.absolute directory
  search d (start.length + 1) start

end Manifest

end PZero
