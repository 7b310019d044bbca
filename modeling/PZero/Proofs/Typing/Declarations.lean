import PZero.Proofs.Typing.Judgement
import PZero.Proofs.Typing.Scope

namespace PZero.Typing

/-- What a constant or a variable of a type is bound to. -/
def valueBinding (isConst : Bool) (type : ValueType) : Binding :=
  if isConst then .constant type else .variable type

theorem valueBinding_inj {c c' : Bool} {t t' : ValueType}
    (h : valueBinding c t = valueBinding c' t') : c = c' ∧ t = t' := by
  cases c <;> cases c' <;> simp_all [valueBinding]

def valueDecl (isConst : Bool) (name : Bytes) (value : Typed.Literal) : Typed.Decl :=
  if isConst then .const name (some value) else .var name (some value)

theorem decl_cases {Γ : Scope} {d : Typed.Decl} (h : d.WellTyped Γ) :
    (∃ isConst name value, value.IsScalar ∧ d = valueDecl isConst name value) ∨
      ∃ name params body result, d = .fun_ name params body result := by
  cases d with
  | const name value =>
    cases value with
    | none => exact h.elim
    | some value => exact .inl ⟨true, name, value, h, rfl⟩
  | var name value =>
    cases value with
    | none => exact h.elim
    | some value => exact .inl ⟨false, name, value, h, rfl⟩
  | fun_ name params body result => exact .inr ⟨name, params, body, result, rfl⟩
  | missing => exact h.elim

@[simp] theorem name_valueDecl (isConst : Bool) (name : Bytes) (value : Typed.Literal) :
    (valueDecl isConst name value).name = name := by
  cases isConst <;> rfl

theorem binding?_valueDecl (isConst : Bool) (name : Bytes) (value : Typed.Literal) :
    (valueDecl isConst name value).binding? = some (name, valueBinding isConst value.type) := by
  cases isConst <;> rfl

variable {p : Typed.Program}

theorem name_of_binding? {d : Typed.Decl} {x : Bytes × Binding}
    (h : d.binding? = some x) : d.name = x.1 := by
  cases d with
  | const other value | var other value =>
    cases value with
    | none => cases h
    | some value =>
      cases h
      rfl
  | fun_ other params body result =>
    cases h
    rfl
  | missing => cases h

theorem mem_decls_of_lookup {name : Bytes} {binding : Binding}
    (h : p.scope.lookup name = some binding) :
    ∃ d ∈ p.decls, d.binding? = some (name, binding) := by
  obtain ⟨l₁, l₂, hl, -⟩ := List.lookup_eq_some_iff.1 h
  have hm : (name, binding) ∈ p.scope := by
    rw [hl]
    simp
  rw [Typed.Program.scope, List.mem_reverse, List.mem_filterMap] at hm
  exact hm

theorem exists_valueDecl {name : Bytes} {isConst : Bool} {type : ValueType} (hp : p.WellTyped)
    (h : p.scope.lookup name = some (valueBinding isConst type)) :
    ∃ value : Typed.Literal, value.IsScalar ∧ value.type = type ∧
      valueDecl isConst name value ∈ p.decls := by
  obtain ⟨d, hd, hb⟩ := mem_decls_of_lookup h
  rcases decl_cases (hp.decls d hd) with ⟨c, n, value, hs, rfl⟩ | ⟨n, params, body, result, rfl⟩
  · rw [binding?_valueDecl, Option.some.injEq, Prod.mk.injEq] at hb
    obtain ⟨rfl, hb⟩ := hb
    obtain ⟨rfl, ht⟩ := valueBinding_inj hb
    exact ⟨value, hs, ht, hd⟩
  · cases isConst <;> cases hb

theorem filterMap_names {α : Type} {f : Typed.Decl → Option (Bytes × α)}
    (hf : ∀ d x, f d = some x → d.name = x.1) (ds : List Typed.Decl) :
    ((ds.filterMap f).map Prod.fst).Sublist (ds.map Typed.Decl.name) := by
  induction ds with
  | nil => exact .slnil
  | cons d ds ih =>
    rw [List.filterMap_cons, List.map_cons]
    cases hd : f d with
    | none => exact ih.cons _
    | some x =>
      rw [List.map_cons, hf d x hd]
      exact ih.cons_cons _

theorem scope_nodup (hp : p.WellTyped) : (p.scope.map Prod.fst).Nodup := by
  rw [Typed.Program.scope, List.map_reverse, List.nodup_reverse]
  exact hp.distinct.sublist (filterMap_names (fun _ _ ↦ name_of_binding?) p.decls)

theorem lookup_scope {isConst : Bool} {name : Bytes} {value : Typed.Literal} (hp : p.WellTyped)
    (hd : valueDecl isConst name value ∈ p.decls) :
    p.scope.lookup name = some (valueBinding isConst value.type) := by
  rw [lookup_iff_mem (scope_nodup hp), Typed.Program.scope, List.mem_reverse,
    List.mem_filterMap]
  exact ⟨_, hd, binding?_valueDecl isConst name value⟩

end PZero.Typing
