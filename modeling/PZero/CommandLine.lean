import PZero.Build
import PZero.Machine.Run
import PZero.Options

namespace PZero.CommandLine

structure Config where
  settings : Build.Settings
  jobs : Int
  verify : Bool
  verbose : Bool
  deriving Repr

def configure (d : Disk) (o : Options) : Except Manifest.Error Config := do
  let m ← Manifest.find d (ascii ".")
  return {
    settings := {
      stage := .artifact
      force := o.force
      outDir := if o.outDir = [] then m.outDir else o.outDir
      mode := if o.mode = [] then m.mode else .ofName o.mode
      keepLL := m.keepLL || o.keepLL
      tools := m.tools }
    jobs := if 0 < o.jobs then o.jobs else m.jobs
    verify := m.verify || o.verify
    verbose := o.verbose }

inductive Error
  | options (error : Options.Error)
  | manifest (error : Manifest.Error)
  | build (failure : Build.Failure)
  | noSources (args : List Bytes)
  | filesFailed (failed total : Nat)
  | oneFileOnly
  | manyFiles (arg : Bytes) (count : Nat)
  | buildFailed
  | machine (failure : Machine.Failure)
  | exitStatus (status : Int)

def Error.message : Error → Bytes
  | .options error => error.message
  | .manifest error => error.message
  | .build failure => failure.message
  | .noSources args =>
    ascii "no " ++ Build.sourceExtension ++ ascii " files in " ++ List.intercalate (ascii " ") args
  | .filesFailed failed total =>
    Bytes.ofNat failed ++ ascii " of " ++ Bytes.ofNat total ++ ascii " files failed"
  | .oneFileOnly => ascii "run takes exactly one file"
  | .manyFiles arg count =>
    ascii "run takes exactly one file, " ++ arg ++ ascii " has " ++ Bytes.ofNat count
  | .buildFailed => ascii "build failed"
  | .machine failure => failure.message
  | .exitStatus n => statusMessage n

structure Outcome where
  world : World
  stdout : Bytes
  stderr : Bytes
  error : Option Error

def Outcome.refuse (w : World) (e : Error) : Outcome := ⟨w, [], [], some e⟩

def problems (results : List Build.Result) : Bytes :=
  (results.filter (·.failed)).flatMap fun r ↦
    Diagnostic.renderAll r.diagnostics
      ++ (r.failure.map fun f ↦ f.message ++ ascii "\n").getD []

def verdict (results : List Build.Result) : Option Error :=
  let failed := results.countP (·.failed)
  if failed = 0 then none else some (.filesFailed failed results.length)

def moduleTexts (results : List Build.Result) : Bytes :=
  results.flatMap fun r ↦ if r.failed then [] else (r.module.map IR.Module.text).getD []

/-- Takes all files to a stage. Without arguments they are those of the directory. -/
def compile (w : World) (o : Options) (stage : Build.Stage) : Outcome :=
  let args := if o.files = [] then [ascii "."] else o.files
  match configure w.disk o with
  | .error e => .refuse w (.manifest e)
  | .ok config =>
    match Build.expand w.disk args with
    | .error f => .refuse w (.build f)
    | .ok [] => .refuse w (.noSources args)
    | .ok sources =>
      let (w, results) := Build.build w { config.settings with stage } sources
      ⟨w, if stage = .ir then moduleTexts results else [], problems results, verdict results⟩

/-- Runs a file on the machine; nothing if `fuel` does not suffice. -/
def interpret (fuel : Nat) (w : World) (source : Bytes) : Option Outcome :=
  match Build.compileFile w.disk source with
  | .failed f => some (.refuse w (.build f))
  | .rejected ds => some ⟨w, [], Diagnostic.renderAll ds, some .buildFailed⟩
  | .module m =>
    match Machine.Session.load m ⟨0, 0⟩ with
    | .error failure => some (.refuse w (.machine failure))
    | .ok session =>
      (session.main fuel).map fun ended ↦
        let error :=
          match ended.status with
          | .error failure => some (.machine failure)
          | .ok status => if status = 0 then none else some (.exitStatus status)
        ⟨w, ended.output, [], error⟩

def buildAndRun (w : World) (s : Build.Settings) (source : Bytes) (args : List Bytes) : Outcome :=
  let (w, results) := Build.build w s [source]
  match verdict results with
  | some e => ⟨w, [], problems results, some e⟩
  | none =>
    let artifact := (results.head?.map (·.artifact)).getD []
    match Build.execute w s artifact args with
    | .error f => .refuse w (.build f)
    | .ok run =>
      ⟨{ w with disk := run.disk }, run.stdout, run.stderr,
        if run.status = 0 then none else some (.exitStatus run.status)⟩

def run (fuel : Nat) (w : World) (o : Options) : Option Outcome :=
  match o.files with
  | [arg] =>
    match Build.expand w.disk [arg] with
    | .error f => some (.refuse w (.build f))
    | .ok [source] =>
      match configure w.disk o with
      | .error e => some (.refuse w (.manifest e))
      | .ok config =>
        if o.engine = .interpret then interpret fuel w source
        else some (buildAndRun w config.settings source o.programArgs)
    | .ok sources => some (.refuse w (.manyFiles arg sources.length))
  | _ => some (.refuse w .oneFileOnly)

def usage : Bytes := ascii
  "p0c - P0 compiler
usage:
  p0c build [flags] [files or dirs]
  p0c run [flags] file [-- args]
  p0c ir [flags] [files or dirs]
  p0c check [flags] [files or dirs]

flags:
  --mode=llvm|native     artifact kind (default: native, or build.mode in p0c.toml)
  --engine=compile|interp  how run executes the program (default: compile)
  --interp               alias for --engine=interp
  --out-dir=DIR, -o DIR  write artifacts to DIR
  --jobs=N, -j N         files compiled in parallel (default: NumCPU)
  --force, -f            rebuild up-to-date artifacts
  --keep-ll              keep the generated .ll next to the artifact
  --verify               parse the generated IR before building
  -v                     verbose progress on stderr
"

structure Answer where
  world : World
  status : Nat
  stdout : Bytes
  stderr : Bytes

/-- An error is the last thing printed, and gives status one. -/
def Outcome.answer (o : Outcome) : Answer :=
  match o.error with
  | none => ⟨o.world, 0, o.stdout, o.stderr⟩
  | some e => ⟨o.world, 1, o.stdout, o.stderr ++ e.message ++ ascii "\n"⟩

def perform (fuel : Nat) (w : World) (name : Bytes) (o : Options) : Option Answer :=
  if name = ascii "build" then some (compile w o .artifact).answer
  else if name = ascii "ir" then some (compile w o .ir).answer
  else if name = ascii "check" then some (compile w o .check).answer
  else if name = ascii "run" then (run fuel w o).map Outcome.answer
  else some ⟨w, 1, [], usage⟩

/-- The whole command line; nothing if a run on the machine takes more than `fuel` steps. -/
def execute (fuel : Nat) (w : World) : List Bytes → Option Answer
  | [] => some ⟨w, 1, [], usage⟩
  | name :: args =>
    if ["help", "-h", "--help"].any (ascii · = name) then some ⟨w, 0, [], usage⟩
    else
      match Options.parse args with
      | .error e => some (Outcome.refuse w (.options e)).answer
      | .ok o => perform fuel w name o

end PZero.CommandLine
