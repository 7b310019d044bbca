import PZero.CommandLine

namespace PZero.Main

def ofText (text : String) : Bytes := text.toUTF8.toList

def toText (path : Bytes) : String := (String.fromUTF8? ⟨path.toArray⟩).getD ""

def placeOf (path : Bytes) : Location := Path.resolve true [] (Path.parts path)

def pathOf (place : Location) : String := toText (ascii "/" ++ Path.join place)

def isRead (place : Location) : Bool :=
  let name := place.getLast?.getD []
  name = Manifest.fileName || Path.extension name = Build.sourceExtension

def look (place : Location) : IO (Option Entry) := do
  let path := (← IO.currentDir) / pathOf place
  try
    let data ← path.metadata
    let changed := data.modified.sec * 1000000000 + data.modified.nsec.toNat
    if data.type == .dir then return some (.directory changed)
    else
      let text ← if isRead place then IO.FS.readBinFile path else pure .empty
      return some (.file text.toList changed false)
  catch _ => return none

partial def survey (place : Location) : IO (List (Location × Entry)) := do
  let path := (← IO.currentDir) / pathOf place
  match ← look place with
  | some (.directory changed) =>
    let mut found := [(place, Entry.directory changed)]
    for child in ← path.readDir do
      let inner := place ++ [ofText child.fileName]
      if (← child.path.symlinkMetadata).type == .symlink then
        found := ((← look inner).map (inner, ·)).toList ++ found
      else found := (← survey inner) ++ found
    return found
  | some e => return [(place, e)]
  | none => return []

def above (place : Location) : IO (List (Location × Entry)) := do
  let outer := (List.range (place.length + 1)).map place.take
  let places := outer.flatMap fun p ↦ [p, p ++ [Manifest.fileName]]
  let found ← places.mapM fun p ↦ do return ((← look p).map (p, ·)).toList
  return found.flatten

def candidates (args : List Bytes) : List Bytes :=
  args.flatMap fun arg ↦ arg :: ((Options.splitValue arg).2).toList

def distinct (entries : List (Location × Entry)) : List (Location × Entry) :=
  entries.foldr (fun e kept ↦ if kept.any (·.1 == e.1) then kept else e :: kept) []

/-- The picture of the files that a command with these arguments may look at. A change is later
than everything in it. -/
def picture (args : List Bytes) : IO Disk := do
  let here := ofText (toString (← IO.currentDir))
  let roots := placeOf here :: (candidates args).map fun arg ↦ placeOf (Path.absolute here arg)
  let surveyed ← roots.eraseDups.mapM survey
  let outer ← roots.eraseDups.mapM above
  let entries := distinct (surveyed.flatten ++ outer.flatten)
  let latest := (entries.map (·.2.changed)).foldl max 0
  return ⟨entries, placeOf here, latest + 1⟩

def commit (before after : Disk) : IO Unit := do
  for (place, e) in after.entries.reverse do
    if before.at? place ≠ some e then
      match e with
      | .directory _ => IO.FS.createDirAll (pathOf place)
      | .file text _ _ => IO.FS.writeBinFile (pathOf place) ⟨text.toArray⟩
  for (place, _) in before.entries do
    if (after.at? place).isNone then IO.FS.removeFile (pathOf place)

def fuel : Nat := 1000000000000000000

/-- The command works on a picture of the files, and what it changed there is carried out. No other
program is started, so that every tool counts as missing. -/
def run (args : List Bytes) : IO UInt32 := do
  let disk ← picture args
  let world : World := ⟨disk, fun _ ↦ none, fun _ ↦ none, ascii "/tmp/p0c-rt"⟩
  match CommandLine.execute fuel world args with
  | none => return 1
  | some answer =>
    commit disk answer.world.disk
    (← IO.getStdout).write ⟨answer.stdout.toArray⟩
    (← IO.getStderr).write ⟨answer.stderr.toArray⟩
    return UInt32.ofNat answer.status

end PZero.Main

def main (args : List String) : IO UInt32 :=
  PZero.Main.run (args.map PZero.Main.ofText)
