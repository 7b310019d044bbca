import PZero.Source

namespace PZero

/-- An error at a place in a file. An empty code marks an error without classification. -/
structure Diagnostic where
  file : Bytes
  line : Int
  col : Int
  code : Bytes
  message : Bytes
  deriving Repr, DecidableEq

namespace Diagnostic

def located (f : File) (place : Span) (code message : Bytes) : Diagnostic :=
  let (line, col) := f.lineCol place.start
  ⟨f.name, line, col, code, message⟩

def le (a b : Diagnostic) : Bool :=
  if a.file = b.file then
    if a.line = b.line then a.col ≤ b.col else a.line < b.line
  else a.file < b.file

def render (d : Diagnostic) : Bytes :=
  let place := d.file ++ ascii ":" ++ Bytes.ofInt d.line ++ ascii ":" ++ Bytes.ofInt d.col
  let kind := if d.code = [] then ascii ": error: " else ascii ": error[" ++ d.code ++ ascii "]: "
  place ++ kind ++ d.message ++ ascii "\n"

/-- One line per error, sorted; errors at one place keep the order in which they were recorded. -/
def renderAll (ds : List Diagnostic) : Bytes :=
  (ds.mergeSort le).flatMap render

def has (ds : List Diagnostic) (code : Bytes) : Bool := ds.any (·.code = code)

end Diagnostic

end PZero
