import PZero.Disk
import PZero.Text.Blank
import PZero.Text.Quoted

namespace PZero

/-- The kind of artifact. An unknown name is refused when it comes to building. -/
inductive Mode
  | native | llvm
  | unknown (name : Bytes)
  deriving Repr, DecidableEq

namespace Mode

def name : Mode → Bytes
  | .native => ascii "native"
  | .llvm => ascii "llvm"
  | .unknown name => name

def ofName (name : Bytes) : Mode :=
  if name = ascii "native" then .native
  else if name = ascii "llvm" then .llvm
  else .unknown name

def parse (name : Bytes) : Except Bytes Mode :=
  match ofName name with
  | .unknown name =>
    .error (ascii "unknown mode " ++ Text.quote name ++ ascii " (want llvm or native)")
  | mode => .ok mode

def artifact (mode : Mode) (base : Bytes) : Bytes :=
  if mode = .llvm then base ++ ascii ".bc" else base

end Mode

structure Tools where
  clang : Bytes
  llvmAs : Bytes
  llvmLink : Bytes
  lli : Bytes
  deriving Repr, DecidableEq

namespace Tools

def usual : Tools := ⟨ascii "clang", ascii "llvm-as", ascii "llvm-link", ascii "lli"⟩

def orUsual (t : Tools) : Tools := if t = ⟨[], [], [], []⟩ then usual else t

def needed (t : Tools) (mode : Mode) : List Bytes :=
  if mode = .llvm then [t.llvmAs, t.clang, t.llvmLink, t.lli] else [t.clang]

end Tools

structure ToolError where
  tool : Bytes
  args : List Bytes
  output : Bytes
  cause : Bytes
  deriving Repr, DecidableEq

def ToolError.message (e : ToolError) : Bytes :=
  let output := Text.trim e.output
  e.tool ++ ascii " " ++ List.intercalate (ascii " ") e.args ++ ascii ": " ++ e.cause
    ++ if output = [] then [] else ascii "\n" ++ output

structure Execution where
  status : Nat
  stdout : Bytes
  stderr : Bytes
  disk : Disk

def statusMessage (status : Int) : Bytes := ascii "exit status " ++ Bytes.ofInt status

abbrev Program := List Bytes → Disk → Execution

/-- What a build finds around it: its files, the programs that can be called by name, what an
executable text does, and a directory for files that nobody keeps. -/
structure World where
  disk : Disk
  named : Bytes → Option Program
  executable : Bytes → Option Program
  scratch : Bytes

namespace World

def start (w : World) (path : Bytes) (args : List Bytes) : Except FileError Execution :=
  let refuse (r : Refusal) : Except FileError Execution := .error ⟨ascii "fork/exec", path, r⟩
  match w.disk.entry path with
  | .ok (.file text _ true) =>
    match w.executable text with
    | some p => .ok (p args w.disk)
    | none => refuse .notExecutable
  | .ok _ => refuse .notPermitted
  | .error r => refuse r

def call? (w : World) (tool : Bytes) (args : List Bytes) : Option (Except FileError Execution) :=
  if tool.contains 47 then
    match w.disk.entry tool with
    | .ok (.file _ _ true) => some (w.start tool args)
    | _ => none
  else (w.named tool).map fun p ↦ .ok (p args w.disk)

end World

end PZero
