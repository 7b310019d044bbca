import PZero.IR.Module

namespace PZero.IR

inductive DraftError
  | closeWithoutScope
  | phiWithoutIncoming
  | finishedTwice (function : Bytes)
  | unbound (name function : Bytes)
  deriving Repr, DecidableEq

def DraftError.message : DraftError → Bytes
  | .closeWithoutScope => ascii "builder: CloseScope without OpenScope"
  | .phiWithoutIncoming => ascii "builder: phi without incoming values"
  | .finishedTwice function => ascii "builder: function " ++ function ++ ascii " built twice"
  | .unbound name function =>
    ascii "unbound name: " ++ name ++ ascii " in function " ++ function

/-- A module under construction. `addresses` holds the declared globals, the latest first, and
`pool` the distinct string literals in the order of their first use. -/
structure ModuleDraft where
  id : Bytes
  externals : List External
  globals : List Global
  functions : List Function
  addresses : List (Bytes × Constant)
  pool : List Bytes
  deriving Repr, Inhabited

namespace ModuleDraft

def new (id : Bytes) : ModuleDraft := ⟨id, [], [], [], [], []⟩

def declareExternal (e : External) (m : ModuleDraft) : ModuleDraft :=
  { m with externals := m.externals ++ [e] }

def declareGlobal (g : Global) (m : ModuleDraft) : ModuleDraft :=
  { m with globals := m.globals ++ [g], addresses := (g.name, g.ref) :: m.addresses }

def address? (name : Bytes) (m : ModuleDraft) : Option Constant := m.addresses.lookup name

def poolGlobal (n : Nat) (text : Bytes) : Global :=
  ⟨Symbol.pooled n, (Constant.cString text).type, true, .cString text⟩

/-- The address of a string literal, which the module holds once. -/
def intern (text : Bytes) (m : ModuleDraft) : Constant × ModuleDraft :=
  match m.pool.idxOf? text with
  | some n => ((poolGlobal n text).ref, m)
  | none =>
    let g := poolGlobal m.pool.length text
    (g.ref, { m with globals := m.globals ++ [g], pool := m.pool ++ [text] })

def build (m : ModuleDraft) : Module := ⟨m.id, m.externals, m.globals, m.functions⟩

end ModuleDraft

/-- A function under construction. `current` is the label of the block that instructions go to, and
the innermost scope comes first. -/
structure Draft where
  name : Bytes
  params : List Register
  result : Ty
  body : List Instr
  nextRegister : Nat
  nextLabel : Nat
  current : Bytes
  scopes : List (List (Bytes × Operand))
  isFinished : Bool
  deriving Repr, Inhabited

namespace Draft

def entry : Bytes := ascii "entry_0"

def new (name : Bytes) (params : List Register) (result : Ty) : Draft :=
  ⟨name, params, result, [.label entry], 0, 1, entry, [], false⟩

def param? (d : Draft) (i : Int) : Option Register :=
  match i with
  | .ofNat n => d.params[n]?
  | .negSucc _ => none

def newLabel (stem : Bytes) (d : Draft) : Bytes × Draft :=
  (stem ++ ascii "_" ++ Bytes.ofNat d.nextLabel, { d with nextLabel := d.nextLabel + 1 })

def openScope (d : Draft) : Draft := { d with scopes := [] :: d.scopes }

def closeScope (d : Draft) : Except DraftError Draft :=
  match d.scopes with
  | [] => .error .closeWithoutScope
  | _ :: outer => .ok { d with scopes := outer }

/-- Binds a name in the innermost scope, and opens one if there is none. -/
def bindName (name : Bytes) (x : Operand) (d : Draft) : Draft :=
  match d.scopes with
  | [] => { d with scopes := [[(name, x)]] }
  | scope :: outer => { d with scopes := ((name, x) :: scope) :: outer }

/-- What a name stands for: its innermost binding, or else a global of the module. -/
def operand (name : Bytes) (m : ModuleDraft) (d : Draft) : Except DraftError Operand :=
  match d.scopes.findSome? (List.lookup name) with
  | some x => .ok x
  | none =>
    match m.address? name with
    | some c => .ok (.const c)
    | none => .error (.unbound name d.name)

def emit (i : Instr) (d : Draft) : Draft := { d with body := d.body ++ [i] }

def define (type : Ty) (make : Register → Instr) (d : Draft) : Register × Draft :=
  let r : Register := ⟨Bytes.ofNat d.nextRegister, type⟩
  (r, { d with body := d.body ++ [make r], nextRegister := d.nextRegister + 1 })

def startBlock (name : Bytes) (d : Draft) : Draft :=
  { d with body := d.body ++ [.label name], current := name }

def bin (op : BinOp) (x y : Operand) : Draft → Register × Draft :=
  define x.type (.bin · op x y)

def icmp (pred : IntPred) (x y : Operand) : Draft → Register × Draft :=
  define (.int 1) (.icmp · pred x y)

def fcmp (pred : FloatPred) (x y : Operand) : Draft → Register × Draft :=
  define (.int 1) (.fcmp · pred x y)

def alloca (elem : Ty) : Draft → Register × Draft :=
  define (.ptr elem) (.alloca · elem)

def load (elem : Ty) (addr : Operand) : Draft → Register × Draft :=
  define elem (.load · elem addr)

def gep (inBounds : Bool) (elem : Ty) (addr : Operand) (indices : List Operand) :
    Draft → Register × Draft :=
  define (elem.addressed (indices.map Operand.index?)) (.gep · inBounds elem addr indices)

def zext (value : Operand) (target : Ty) : Draft → Register × Draft :=
  define target (.zext · value target)

def call (result : Ty) (callee : Bytes) (args : List Operand) : Draft → Register × Draft :=
  define result (.call · result callee args)

/-- Merges values by the block that control comes from; the type is that of the first one. -/
def phi (incoming : List Incoming) (d : Draft) : Except DraftError (Register × Draft) :=
  match incoming with
  | [] => .error .phiWithoutIncoming
  | first :: _ => .ok (d.define first.value.type (.phi · incoming))

def finish (m : ModuleDraft) (d : Draft) : Except DraftError (ModuleDraft × Draft) :=
  if d.isFinished then .error (.finishedTwice d.name)
  else
    .ok ({ m with functions := m.functions ++ [⟨d.name, d.params, d.result, d.body⟩] },
      { d with body := [], scopes := [], isFinished := true })

end Draft

end PZero.IR
