import PZero.Path

namespace PZero

abbrev Location := List Bytes

inductive Entry
  | file (text : Bytes) (changed : Int) (isProgram : Bool)
  | directory (changed : Int)
  deriving Repr, DecidableEq

def Entry.changed : Entry → Int
  | .file _ changed _ | .directory changed => changed

def Entry.isDirectory : Entry → Bool
  | .directory _ => true
  | .file _ _ _ => false

inductive Refusal
  | noEntry | notDirectory | isDirectory | exists_ | notPermitted | notExecutable | invalid
  | tooLong
  deriving Repr, DecidableEq

def Refusal.message : Refusal → Bytes
  | .noEntry => ascii "no such file or directory"
  | .notDirectory => ascii "not a directory"
  | .isDirectory => ascii "is a directory"
  | .exists_ => ascii "file exists"
  | .notPermitted => ascii "permission denied"
  | .notExecutable => ascii "exec format error"
  | .invalid => ascii "invalid argument"
  | .tooLong => ascii "file name too long"

structure FileError where
  operation : Bytes
  path : Bytes
  refusal : Refusal
  deriving Repr, DecidableEq

def FileError.message (e : FileError) : Bytes :=
  e.operation ++ ascii " " ++ e.path ++ ascii ": " ++ e.refusal.message

/-- A relative path starts at the directory `here`, and `now` is the time that a change gets. -/
structure Disk where
  entries : List (Location × Entry)
  here : Location
  now : Int
  deriving Repr

namespace Disk

def at? (d : Disk) (place : Location) : Option Entry :=
  if place = [] then some (.directory d.now) else d.entries.lookup place

def longestName : Nat := 255

def longestPath : Nat := 4095

/-- Follows names from an existing place. Every name but the last one has to lead to a
directory. -/
def walk (d : Disk) (place : Location) : List Bytes → Except Refusal Location
  | [] => .ok place
  | name :: rest =>
    match d.at? place with
    | some (.directory _) =>
      if name = [] ∨ name = ascii "." then d.walk place rest
      else if name = ascii ".." then d.walk place.dropLast rest
      else
        match d.at? (place ++ [name]) with
        | some _ => d.walk (place ++ [name]) rest
        | none => .error (if longestName < name.length then .tooLong else .noEntry)
    | _ => .error .notDirectory

def start (d : Disk) (path : Bytes) : Location := if Path.isAbsolute path then [] else d.here

def accept (path : Bytes) : Except Refusal Unit :=
  if path.contains 0 then .error .invalid
  else if path = [] then .error .noEntry
  else if longestPath < path.length then .error .tooLong
  else .ok ()

def locate (d : Disk) (path : Bytes) : Except Refusal Location := do
  accept path
  d.walk (d.start path) (Path.parts path)

def entry (d : Disk) (path : Bytes) : Except Refusal Entry := do
  let place ← d.locate path
  match d.at? place with
  | some e => return e
  | none => throw .noEntry

def put (d : Disk) (place : Location) (e : Entry) : Disk :=
  { d with entries := (place, e) :: d.entries.filter (·.1 ≠ place) }

def stat (d : Disk) (path : Bytes) : Except FileError Entry :=
  (d.entry path).mapError fun r ↦ ⟨ascii "stat", path, r⟩

def read (d : Disk) (path : Bytes) : Except FileError Bytes :=
  match d.entry path with
  | .ok (.file text _ _) => .ok text
  | .ok (.directory _) => .error ⟨ascii "read", path, .isDirectory⟩
  | .error r => .error ⟨ascii "open", path, r⟩

def holder (d : Disk) (path : Bytes) : Except Refusal (Location × Bytes) := do
  accept path
  let names := Path.parts path
  let name := names.getLast?.getD []
  let place ← d.walk (d.start path) names.dropLast
  match d.at? place with
  | some (.directory _) =>
    if longestName < name.length then throw .tooLong
    return (place, name)
  | _ => throw .notDirectory

def write (d : Disk) (path text : Bytes) : Except FileError Disk :=
  let refuse (r : Refusal) : Except FileError Disk := .error ⟨ascii "open", path, r⟩
  match d.holder path with
  | .error r => refuse r
  | .ok (place, name) =>
    if name = [] ∨ name = ascii "." ∨ name = ascii ".." then refuse .isDirectory
    else
      match d.at? (place ++ [name]) with
      | some (.directory _) => refuse .isDirectory
      | some (.file _ _ isProgram) => .ok (d.put (place ++ [name]) (.file text d.now isProgram))
      | none => .ok (d.put (place ++ [name]) (.file text d.now false))

/-- Removes a file or an empty directory; anything else stays. -/
def remove (d : Disk) (path : Bytes) : Disk :=
  match d.locate path with
  | .ok place =>
    if d.entries.any fun (other, _) ↦ other ≠ place ∧ place.isPrefixOf other then d
    else { d with entries := d.entries.filter (·.1 ≠ place) }
  | .error _ => d

/-- Creates one directory. An existing directory is accepted. -/
def makeDirectory (d : Disk) (path : Bytes) : Except FileError Disk :=
  match d.holder (Path.dropTrailingSlashes path) with
  | .error r => .error ⟨ascii "mkdir", path, r⟩
  | .ok (place, name) =>
    if name = [] ∨ name = ascii "." ∨ name = ascii ".." then .ok d
    else
      match d.at? (place ++ [name]) with
      | some (.directory _) => .ok d
      | some (.file _ _ _) => .error ⟨ascii "mkdir", path, .exists_⟩
      | none => .ok (d.put (place ++ [name]) (.directory d.now))

def parentOf (path : Bytes) : Bytes :=
  let trimmed := Path.dropTrailingSlashes path
  trimmed.take (trimmed.length - (Path.afterSlash trimmed).length)

/-- Creates a directory and those above it; a path has at most as many as it has bytes. -/
def makeAll (d : Disk) : (bound : Nat) → (path : Bytes) → Except FileError Disk
  | 0, _ => .ok d
  | bound + 1, path =>
    match d.entry path with
    | .ok (.directory _) => .ok d
    | .ok (.file _ _ _) => .error ⟨ascii "mkdir", path, .notDirectory⟩
    | .error _ => do
      let parent := parentOf path
      let d ← if parent = [] then pure d else d.makeAll bound parent
      d.makeDirectory path

def makeDirectories (d : Disk) (path : Bytes) : Except FileError Disk :=
  d.makeAll (path.length + 1) path

def filesBelow (d : Disk) (place : Location) : List (List Bytes) :=
  d.entries.filterMap fun (other, e) ↦
    if place.isPrefixOf other ∧ !e.isDirectory then some (other.drop place.length) else none

def sorted (texts : List Bytes) : List Bytes := texts.mergeSort fun a b ↦ !(b < a)

def absolute (d : Disk) (path : Bytes) : Bytes :=
  Path.absolute (ascii "/" ++ Path.join d.here) path

end Disk

end PZero
