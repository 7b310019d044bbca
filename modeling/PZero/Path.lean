import PZero.Bytes

namespace PZero.Path

def isAbsolute (path : Bytes) : Bool := Bytes.startsWith path (ascii "/")

def parts (path : Bytes) : List Bytes := Bytes.splitAtByte 47 path

/-- Walks the names of a path, with the names kept so far in reverse. An empty name and `.` stay in
place, and `..` takes back the last name; above a root there is nothing, and above a relative start
each `..` is kept. -/
def resolve (rooted : Bool) (kept : List Bytes) : List Bytes → List Bytes
  | [] => kept.reverse
  | name :: rest =>
    if name = [] ∨ name = ascii "." then resolve rooted kept rest
    else if name = ascii ".." then
      match kept with
      | last :: before =>
        if last = ascii ".." then resolve rooted (name :: kept) rest
        else resolve rooted before rest
      | [] => if rooted then resolve rooted [] rest else resolve rooted [name] rest
    else resolve rooted (name :: kept) rest

def join (names : List Bytes) : Bytes := List.intercalate (ascii "/") names

/-- The shortest path with the same meaning when there are no links. -/
def clean (path : Bytes) : Bytes :=
  let rooted := isAbsolute path
  let names := join (resolve rooted [] (parts path))
  if rooted then ascii "/" ++ names else if names = [] then ascii "." else names

def below (directory path : Bytes) : Bytes :=
  if directory = [] then if path = [] then [] else clean path
  else clean (directory ++ ascii "/" ++ path)

def afterSlash (path : Bytes) : Bytes := (path.reverse.takeWhile (· != 47)).reverse

def dropTrailingSlashes (path : Bytes) : Bytes := (path.reverse.dropWhile (· == 47)).reverse

def base (path : Bytes) : Bytes :=
  if path = [] then ascii "."
  else
    let name := afterSlash (dropTrailingSlashes path)
    if name = [] then ascii "/" else name

def directory (path : Bytes) : Bytes :=
  clean (path.take (path.length - (afterSlash path).length))

def extension (path : Bytes) : Bytes :=
  let name := afterSlash path
  let back := (name.reverse.takeWhile (· != 46)).length
  if back = name.length then [] else name.drop (name.length - back - 1)

def withoutExtension (path : Bytes) : Bytes :=
  path.take (path.length - (extension path).length)

def absolute (here path : Bytes) : Bytes :=
  if isAbsolute path then clean path else below here path

end PZero.Path
