import Mathlib.Data.List.Nodup
import PZero.Proofs.Typing.Rules

namespace PZero.Typing

theorem lookup_iff_mem {α : Type} {scope : List (Bytes × α)} {name : Bytes} {a : α}
    (h : (scope.map Prod.fst).Nodup) : scope.lookup name = some a ↔ (name, a) ∈ scope := by
  induction scope with
  | nil => simp
  | cons x scope ih =>
    obtain ⟨other, b⟩ := x
    rw [List.map_cons, List.nodup_cons] at h
    rw [List.lookup_cons, List.mem_cons, Prod.mk.injEq]
    by_cases hn : name = other
    · subst hn
      have hm : (name, a) ∉ scope := fun hm ↦ h.1 (List.mem_map.2 ⟨_, hm, rfl⟩)
      simp [hm, eq_comm]
    · have hb : (name == other) = false := beq_eq_false_iff_ne.2 hn
      simp [hb, hn, ih h.2]

theorem lookup_eq_none {α : Type} {scope : List (Bytes × α)} {name : Bytes} :
    scope.lookup name = none ↔ name ∉ scope.map Prod.fst := by
  rw [List.lookup_eq_none_iff]
  simp only [List.mem_map, not_exists, not_and, bne_iff_ne]
  exact ⟨fun h x hx he ↦ h x hx he.symm, fun h x hx he ↦ h x hx he.symm⟩

theorem findSome?_lookup {α : Type} (name : Bytes) (scopes : List (List (Bytes × α))) :
    scopes.findSome? (List.lookup name) = scopes.flatten.lookup name := by
  induction scopes with
  | nil => rfl
  | cons scope scopes ih =>
    rw [List.findSome?_cons, List.flatten_cons, List.lookup_append]
    cases List.lookup name scope with
    | none => exact ih
    | some x => rfl

def Binding.types : Binding → List ValueType
  | .constant type | .variable type => [type]
  | .function params result => params ++ result.toList

/-- No scope has a name twice, and every name has a type. -/
structure Scopes.Known (scopes : Scopes) : Prop where
  distinct : ∀ scope ∈ scopes, (scope.map Prod.fst).Nodup
  scalar : ∀ scope ∈ scopes, ∀ x ∈ scope, ∀ type ∈ x.2.types, type ∈ ValueType.scalars

variable {scope : Scope} {scopes outer : Scopes} {name : Bytes} {binding : Binding}

namespace Scopes.Known

theorem tail (h : Known (scope :: outer)) : Known outer :=
  ⟨fun s hs ↦ h.distinct s (List.mem_cons_of_mem _ hs),
    fun s hs ↦ h.scalar s (List.mem_cons_of_mem _ hs)⟩

theorem enter (h : Known scopes) : Known ([] :: scopes) where
  distinct s hs := by
    rcases List.mem_cons.1 hs with rfl | hs
    · exact List.nodup_nil
    · exact h.distinct s hs
  scalar s hs := by
    rcases List.mem_cons.1 hs with rfl | hs
    · simp
    · exact h.scalar s hs

theorem declare (h : Known (scope :: outer)) (hn : name ∉ scope.map Prod.fst)
    (hb : ∀ type ∈ binding.types, type ∈ ValueType.scalars) :
    Known (((name, binding) :: scope) :: outer) where
  distinct s hs := by
    rcases List.mem_cons.1 hs with rfl | hs
    · exact List.nodup_cons.2 ⟨hn, h.distinct scope List.mem_cons_self⟩
    · exact h.tail.distinct s hs
  scalar s hs := by
    rcases List.mem_cons.1 hs with rfl | hs
    · intro x hx
      rcases List.mem_cons.1 hx with rfl | hx
      · exact hb
      · exact h.scalar scope List.mem_cons_self x hx
    · exact h.tail.scalar s hs

end Scopes.Known

theorem resolves_iff (h : scopes.Known) :
    Resolves scopes name binding ↔ scopes.lookup name = some binding := by
  induction scopes with
  | nil =>
    constructor
    · rintro ⟨⟩
    · intro h
      cases h
  | cons scope outer ih =>
    have hm : scope.lookup name = some binding ↔ (name, binding) ∈ scope :=
      lookup_iff_mem (h.distinct scope List.mem_cons_self)
    rw [Scopes.lookup, List.findSome?_cons]
    cases hl : scope.lookup name with
    | some b =>
      constructor
      · rintro (hin | ⟨hnot, -⟩)
        · rw [← hl, hm.2 hin]
        · rw [← lookup_eq_none, hl] at hnot
          cases hnot
      · intro he
        exact .here (hm.1 (hl.trans he))
    | none =>
      have hnot := lookup_eq_none.1 hl
      constructor
      · rintro (hin | ⟨-, ho⟩)
        · rw [hm.2 hin] at hl
          cases hl
        · exact (ih h.tail).1 ho
      · exact fun he ↦ .outer hnot ((ih h.tail).2 he)

theorem not_resolves_iff (h : scopes.Known) :
    (∀ binding, ¬Resolves scopes name binding) ↔ scopes.lookup name = none := by
  simp only [resolves_iff h, Option.eq_none_iff_forall_ne_some]

theorem Resolves.mem (h : Resolves scopes name binding) :
    ∃ scope ∈ scopes, (name, binding) ∈ scope := by
  induction h with
  | here hm => exact ⟨_, List.mem_cons_self, hm⟩
  | outer _ _ ih =>
    obtain ⟨scope, hs, hm⟩ := ih
    exact ⟨scope, List.mem_cons_of_mem _ hs, hm⟩

theorem Resolves.scalar (h : Resolves scopes name binding) (hk : scopes.Known) :
    ∀ type ∈ binding.types, type ∈ ValueType.scalars := by
  obtain ⟨scope, hs, hm⟩ := h.mem
  exact hk.scalar scope hs _ hm

theorem declare_of_not_mem {ident : Surface.Ident} (h : ident.name ∉ scope.map Prod.fst) :
    Scopes.declare (scope :: outer) ident binding =
      (((ident.name, binding) :: scope) :: outer, []) := by
  simp [Scopes.declare, lookup_eq_none.2 h]

theorem declare_of_mem {ident : Surface.Ident} (h : ident.name ∈ scope.map Prod.fst) :
    Scopes.declare (scope :: outer) ident binding =
      (scope :: outer, [⟨ident.span, .redefinition ident.name⟩]) := by
  cases hl : scope.lookup ident.name with
  | none => exact absurd h (lookup_eq_none.1 hl)
  | some b => simp [Scopes.declare, hl]

theorem declare_iff {ident : Surface.Ident} {scopes' : Scopes} :
    Scopes.declare (scope :: outer) ident binding = (scopes', []) ↔
      ident.name ∉ scope.map Prod.fst ∧ scopes' = ((ident.name, binding) :: scope) :: outer := by
  by_cases h : ident.name ∈ scope.map Prod.fst
  · simp [declare_of_mem h, h]
  · simp [declare_of_not_mem h, h, eq_comm]

end PZero.Typing
