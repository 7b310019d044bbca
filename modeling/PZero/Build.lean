import PZero.Lowering.Program
import PZero.Manifest
import PZero.Typing.Check

namespace PZero.Build

def sourceExtension : Bytes := ascii ".p0"

inductive Stage
  | check | ir | artifact
  deriving Repr, DecidableEq

/-- `force` rebuilds what is up to date. -/
structure Settings where
  stage : Stage
  force : Bool
  outDir : Bytes
  mode : Mode
  keepLL : Bool
  tools : Tools
  deriving Repr

inductive Failure
  | file (error : FileError)
  | lowering (fault : Lowering.Fault)
  | notSource (path : Bytes)
  | collision (source base previous : Bytes)
  | toolMissing (name : Bytes)
  | toolFailed (error : ToolError)
  | unknownMode (name : Bytes)
  | cancelled
  | inSource (source : Bytes) (failure : Failure)
  deriving Repr

def Failure.message : Failure → Bytes
  | .file error => error.message
  | .lowering fault => fault.message
  | .notSource path => path ++ ascii ": not a " ++ sourceExtension ++ ascii " file"
  | .collision source base previous =>
    source ++ ascii ": output " ++ base ++ ascii " is also written for " ++ previous
  | .toolMissing name => ascii "tool not found: " ++ name
  | .toolFailed error => error.message
  | .unknownMode name => ascii "unknown mode " ++ Text.quote name
  | .cancelled => ascii "context canceled"
  | .inSource source failure => source ++ ascii ": " ++ failure.message

/-- The source files that an argument names: all below a directory, or one file, whose extension
may be left out. -/
def expandOne (d : Disk) (arg : Bytes) : Except Failure (List Bytes) :=
  let single : Except Failure (List Bytes) :=
    let path := if Path.extension arg = [] then arg ++ sourceExtension else arg
    if Path.extension path = sourceExtension then .ok [path] else .error (.notSource path)
  match d.locate arg with
  | .error _ => single
  | .ok place =>
    match d.at? place with
    | some (.directory _) =>
      let paths := (d.filesBelow place).map fun names ↦ Path.below arg (Path.join names)
      .ok (Disk.sorted (paths.filter (Path.extension · = sourceExtension)))
    | _ => single

def expand (d : Disk) : List Bytes → Except Failure (List Bytes)
  | [] => .ok []
  | arg :: args => do
    let paths ← expandOne d arg
    let rest ← expand d args
    return paths ++ rest

def isStale (d : Disk) (source target : Bytes) : Except FileError Bool := do
  let s ← d.stat source
  match d.stat target with
  | .ok t => return t.changed < s.changed
  | .error e => if e.refusal = .noEntry then return true else throw e

def base (source outDir : Bytes) : Bytes :=
  let base := Path.withoutExtension source
  if outDir = [] then base else Path.below outDir (Path.base base)

/-- The outcome for one source. It failed if there are diagnostics or a failure. -/
structure Result where
  source : Bytes
  artifact : Bytes
  skipped : Bool
  module : Option IR.Module
  diagnostics : List Diagnostic
  failure : Option Failure

namespace Result

def new (source : Bytes) : Result := ⟨source, [], false, none, [], none⟩

def failed (r : Result) : Bool := r.failure.isSome || !r.diagnostics.isEmpty

end Result

inductive Compiled
  | module (m : IR.Module)
  | rejected (ds : List Diagnostic)
  | failed (f : Failure)

def compileFile (d : Disk) (path : Bytes) : Compiled :=
  match d.read path with
  | .error e => .failed (.file e)
  | .ok text =>
    match Typing.checkFile ⟨path, text⟩ with
    | .error ds => .rejected ds
    | .ok program =>
      match Lowering.lower (Symbol.moduleOf path) program with
      | .ok m => .module m
      | .error fault => .failed (.lowering fault)

def checkFile (d : Disk) (r : Result) : Result :=
  match d.read r.source with
  | .error e => { r with failure := some (.file e) }
  | .ok text =>
    match Typing.checkFile ⟨r.source, text⟩ with
    | .error ds => { r with diagnostics := ds }
    | .ok _ => r

def callTool (w : World) (name : Bytes) (args : List Bytes) : Except Failure World :=
  match w.call? name args with
  | none => .error (.toolMissing name)
  | some (.error e) => .error (.toolFailed ⟨name, args, [], e.message⟩)
  | some (.ok run) =>
    if run.status = 0 then .ok { w with disk := run.disk }
    else
      .error (.toolFailed ⟨name, args, run.stdout ++ run.stderr, statusMessage run.status⟩)

def toolCalls (scratch base : Bytes) (s : Settings) : Except Failure (List (Bytes × List Bytes)) :=
  let t := s.tools.orUsual
  let text := base ++ ascii ".ll"
  let library := Path.below scratch (ascii "p0lib.c")
  let libraryCode := Path.below scratch (ascii "p0lib.bc")
  let code := base ++ ascii ".prog.bc"
  let artifact := s.mode.artifact base
  match s.mode with
  | .llvm =>
    .ok [(t.llvmAs, [text, ascii "-o", code]),
      (t.clang, [ascii "-c", ascii "-emit-llvm", library, ascii "-o", libraryCode]),
      (t.llvmLink, [code, libraryCode, ascii "-o", artifact])]
  | .unknown (b :: name) => .error (.unknownMode (b :: name))
  | _ => .ok [(t.clang, [text, library, ascii "-o", artifact])]

def callTools (w : World) : List (Bytes × List Bytes) → World × Option Failure
  | [] => (w, none)
  | (tool, args) :: rest =>
    match callTool w tool args with
    | .ok w => callTools w rest
    | .error f => (w, some f)

def tidy (d : Disk) (base : Bytes) (s : Settings) : Disk :=
  let d := if s.mode = .llvm then d.remove (base ++ ascii ".prog.bc") else d
  if s.keepLL then d else d.remove (base ++ ascii ".ll")

def assemble (w : World) (m : IR.Module) (base : Bytes) (s : Settings) : World × Option Failure :=
  match w.disk.write (base ++ ascii ".ll") m.text with
  | .error e => (w, some (.file e))
  | .ok disk =>
    let w := { w with disk }
    let (w, failure) :=
      match toolCalls w.scratch base s with
      | .ok calls => callTools w calls
      | .error f => (w, some f)
    ({ w with disk := tidy w.disk base s }, failure)

def makeOutDir (w : World) (s : Settings) : Except FileError World :=
  if s.outDir = [] then .ok w
  else do
    let disk ← w.disk.makeDirectories s.outDir
    return { w with disk }

def produce (w : World) (s : Settings) (r : Result) : World × Result :=
  match compileFile w.disk r.source with
  | .failed f => (w, { r with failure := some f })
  | .rejected ds => (w, { r with diagnostics := ds })
  | .module m =>
    let r := { r with module := some m }
    if s.stage = .ir then (w, r)
    else
      match makeOutDir w s with
      | .error e => (w, { r with failure := some (.file e) })
      | .ok w =>
        let (w, failure) := assemble w m (base r.source s.outDir) s
        (w, { r with failure := failure.map (.inSource r.source) })

/-- Builds one file. An artifact that is not older than its source is left as it is. -/
def buildOne (w : World) (s : Settings) (r : Result) : World × Result :=
  match s.stage with
  | .check => (w, checkFile w.disk r)
  | .ir => produce w s r
  | .artifact =>
    let r := { r with artifact := s.mode.artifact (base r.source s.outDir) }
    if s.force then produce w s r
    else
      match isStale w.disk r.source r.artifact with
      | .error e => (w, { r with failure := some (.file e) })
      | .ok true => produce w s r
      | .ok false => (w, { r with skipped := true })

def outputKey (source outDir : Bytes) : Bytes := Path.clean (base source outDir)

/-- Marks each source whose outputs an earlier one writes; `taken` holds the outputs so far and
their sources. -/
def reserve (outDir : Bytes) (taken : List (Bytes × Bytes)) : List Bytes → List Result
  | [] => []
  | source :: rest =>
    let key := outputKey source outDir
    match taken.lookup key with
    | some previous =>
      { Result.new source with failure := some (.collision source key previous) }
        :: reserve outDir taken rest
    | none => .new source :: reserve outDir ((key, source) :: taken) rest

/-- The results before anything is built. Only outputs can collide. -/
def plan (s : Settings) (sources : List Bytes) : List Result :=
  if s.stage = .artifact then reserve s.outDir [] sources else sources.map .new

def buildAll (w : World) (s : Settings) : List Result → World × List Result
  | [] => (w, [])
  | r :: rs =>
    let (w, r) := if r.failure.isSome then (w, r) else buildOne w s r
    let (w, rs) := buildAll w s rs
    (w, r :: rs)

def build (w : World) (s : Settings) (sources : List Bytes) : World × List Result :=
  buildAll w s (plan s sources)

def execute (w : World) (s : Settings) (artifact : Bytes) (args : List Bytes) :
    Except Failure Execution :=
  match s.mode with
  | .llvm =>
    let lli := s.tools.orUsual.lli
    match w.call? lli (artifact :: args) with
    | some run => run.mapError .file
    | none => .error (.toolMissing lli)
  | .unknown (b :: name) => .error (.unknownMode (b :: name))
  | _ => (w.start (w.disk.absolute artifact) args).mapError .file

end PZero.Build
