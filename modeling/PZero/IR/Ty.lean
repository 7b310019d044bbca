import PZero.Bytes

namespace PZero.IR

inductive FloatKind
  | half | single | double
  deriving Repr, DecidableEq, Inhabited

/-- Widths and sizes written by hand need not make sense. `missing` stands where a type was left
out; it has no spelling. -/
inductive Ty
  | void
  | int (bits : Int)
  | float (kind : FloatKind)
  | ptr (elem : Ty)
  | array (size : Int) (elem : Ty)
  | struct (packed : Bool) (elems : List Ty)
  | func (result : Ty) (args : List Ty) (varArg : Bool)
  | missing
  deriving Repr, Inhabited

def commas (items : List Bytes) : Bytes := List.intercalate (ascii ", ") items

namespace Ty

mutual

def text : Ty → Bytes
  | .void => ascii "void"
  | .int bits => ascii "i" ++ Bytes.ofInt bits
  | .float .half => ascii "half"
  | .float .single => ascii "float"
  | .float .double => ascii "double"
  | .ptr elem => elem.text ++ ascii "*"
  | .array size elem =>
    ascii "[" ++ Bytes.ofInt size ++ ascii " x " ++ elem.text ++ ascii "]"
  | .struct packed elems =>
    let body := ascii "\x7b " ++ commas (texts elems) ++ ascii " \x7d"
    if packed then ascii "<" ++ body ++ ascii ">" else body
  | .func result args varArg =>
    let args := texts args ++ if varArg then [ascii "..."] else []
    result.text ++ ascii " (" ++ commas args ++ ascii ")"
  | .missing => []

def texts : List Ty → List Bytes
  | [] => []
  | t :: ts => t.text :: texts ts

end

mutual

def isWhole : Ty → Bool
  | .void | .int _ | .float _ => true
  | .ptr elem | .array _ elem => elem.isWhole
  | .struct _ elems => allWhole elems
  | .func result args _ => result.isWhole && allWhole args
  | .missing => false

def allWhole : List Ty → Bool
  | [] => true
  | t :: ts => t.isWhole && allWhole ts

end

def isMissing : Ty → Bool
  | .missing => true
  | _ => false

/-- Whether two types have one spelling. A missing type is only like itself. -/
def same (a b : Ty) : Bool :=
  if a.isMissing || b.isMissing then a.isMissing && b.isMissing else a.text = b.text

/-- A type inside a message, where the parts that are missing leave a mark. -/
def shown (t : Ty) : Bytes :=
  if t.isMissing then ascii "%!s(<nil>)"
  else if t.isWhole then t.text
  else ascii "%!s(PANIC=String method: runtime error: "
    ++ ascii "invalid memory address or nil pointer dereference)"

def pointee? : Ty → Option Ty
  | .ptr elem => some elem
  | _ => none

end Ty

end PZero.IR
