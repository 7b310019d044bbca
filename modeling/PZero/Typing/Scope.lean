import PZero.Surface
import PZero.Typing.Problem

namespace PZero.Typing

inductive Binding
  | constant (type : ValueType)
  | variable (type : ValueType)
  | function (params : List ValueType) (result : Option ValueType)
  deriving Repr, DecidableEq

abbrev Scope := List (Bytes × Binding)

abbrev Scopes := List Scope

namespace Scopes

def lookup (scopes : Scopes) (name : Bytes) : Option Binding :=
  scopes.findSome? (List.lookup name)

def enter (scopes : Scopes) : Scopes := [] :: scopes

/-- Declares a name in the innermost scope. A second declaration there is a problem, and the first
one stays. -/
def declare (scopes : Scopes) (name : Surface.Ident) (binding : Binding) : Scopes × List Finding :=
  match scopes with
  | [] => ([[(name.name, binding)]], [])
  | scope :: outer =>
    if (scope.lookup name.name).isSome then (scopes, [⟨name.span, .redefinition name.name⟩])
    else (((name.name, binding) :: scope) :: outer, [])

end Scopes

end PZero.Typing
