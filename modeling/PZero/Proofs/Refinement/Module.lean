import PZero.Proofs.Lowering.Program
import PZero.Proofs.Refinement.Steps

namespace PZero.Refinement

open IR
open Lowering (Lower lowerBody lowerDecl paramRegisters start)

/-- A module draft behind some declarations of a program. -/
structure Built (ds : List Typed.Decl) (m : ModuleDraft) : Prop where
  externals : m.externals = Library.externals
  addresses : ∀ {name c}, m.address? name = some c → ∃ type, c = .global name type
  distinct : (m.globals.map Global.name).Nodup
  vars : ∀ d ∈ ds, ∀ g, d.global? = some g → g ∈ m.globals
  pooled : ∀ {n : Nat} {text}, m.pool[n]? = some text → ModuleDraft.poolGlobal n text ∈ m.globals
  origin : ∀ g ∈ m.globals, (∃ d ∈ ds, d.global? = some g) ∨
    ∃ n text, m.pool[n]? = some text ∧ g = ModuleDraft.poolGlobal n text
  names : (m.functions.map Function.name).Sublist (ds.map Typed.Decl.name)
  functions : ∀ {name params body result}, .fun_ name params body result ∈ ds →
    ∃ F ∈ m.functions, F.name = name ∧ paramRegisters params = .ok F.params ∧
      Lowered m.pool F (lowerBody params F.params body result)

/-- A name that no pooled string has. -/
def Apart (name : Bytes) : Prop := ∀ n : Nat, name ≠ Symbol.pooled n

variable {ds : List Typed.Decl} {d : Typed.Decl} {m : ModuleDraft}

theorem built_start (id : Bytes) : Built [] (start id) where
  externals := rfl
  addresses h := by cases h
  distinct := List.nodup_nil
  vars d hd := by cases hd
  pooled h := by cases h
  origin g hg := by cases hg
  names := .slnil
  functions h := by cases h

theorem Lowered.mono {pool pool' : List Bytes} {F : Function} {code : Lower Unit}
    (h : Lowered pool F code) (hp : pool <+: pool') : Lowered pool' F code := by
  obtain ⟨m, s, hs, hb, hpool, ha⟩ := h
  exact ⟨m, s, hs, hb, hpool.trans hp, ha⟩

namespace Built

theorem name_mem {g : Global} (h : ∃ d ∈ ds, d.global? = some g) :
    g.name ∈ ds.map Typed.Decl.name := by
  obtain ⟨d, hd, hg⟩ := h
  rw [Typed.Decl.name_of_global? hg]
  exact List.mem_map_of_mem hd

theorem withPool (h : Built ds m) (ha : ∀ d ∈ ds, Apart d.name) (texts : List Bytes) :
    Built ds (m.withPool texts) where
  externals := h.externals
  addresses := h.addresses
  distinct := by
    simp only [ModuleDraft.withPool, List.map_append]
    refine List.nodup_append.2 ⟨h.distinct, pooledFrom_nodup _ _, ?_⟩
    intro name hn other ho he
    subst he
    obtain ⟨g, hg, rfl⟩ := List.mem_map.1 hn
    obtain ⟨g', hg', he⟩ := List.mem_map.1 ho
    obtain ⟨i, text, -, rfl⟩ := mem_pooledFrom.1 hg'
    rcases h.origin g hg with hd | ⟨n, text', ht, rfl⟩
    · obtain ⟨d, hd, hn⟩ := List.mem_map.1 (name_mem hd)
      exact ha d hd (m.pool.length + i) (hn.trans he.symm)
    · have hlt := (List.getElem?_eq_some_iff.1 ht).1
      have := Symbol.pooled_inj he
      omega
  vars d hd g hg := List.mem_append_left _ (h.vars d hd g hg)
  pooled {n text} ht := by
    simp only [ModuleDraft.withPool] at ht ⊢
    by_cases hn : n < m.pool.length
    · rw [List.getElem?_append_left hn] at ht
      exact List.mem_append_left _ (h.pooled ht)
    · rw [List.getElem?_append_right (by omega)] at ht
      refine List.mem_append_right _ (mem_pooledFrom.2 ⟨n - m.pool.length, text, ht, ?_⟩)
      rw [Nat.add_sub_cancel' (by omega)]
  origin g hg := by
    simp only [ModuleDraft.withPool] at hg ⊢
    rcases List.mem_append.1 hg with hg | hg
    · rcases h.origin g hg with hd | ⟨n, text, ht, rfl⟩
      · exact .inl hd
      · have hlt := (List.getElem?_eq_some_iff.1 ht).1
        exact .inr ⟨n, text, by rw [List.getElem?_append_left hlt, ht], rfl⟩
    · obtain ⟨i, text, ht, rfl⟩ := mem_pooledFrom.1 hg
      refine .inr ⟨m.pool.length + i, text, ?_, rfl⟩
      rw [List.getElem?_append_right (by omega), Nat.add_sub_cancel_left, ht]
  names := h.names
  functions hd := by
    obtain ⟨F, hF, hn, hp, hl⟩ := h.functions hd
    exact ⟨F, hF, hn, hp, hl.mono (List.prefix_append _ _)⟩

theorem declareGlobal {g : Global} (h : Built ds m) (hg : d.global? = some g)
    (hnew : d.name ∉ ds.map Typed.Decl.name) (ha : Apart d.name) :
    Built (ds ++ [d]) (m.declareGlobal g) where
  externals := h.externals
  addresses {name c} hc := by
    simp only [ModuleDraft.declareGlobal, ModuleDraft.address?, List.lookup_cons] at hc
    split at hc
    · rename_i he
      cases hc
      exact ⟨_, by rw [beq_iff_eq.1 he]; rfl⟩
    · exact h.addresses hc
  distinct := by
    simp only [ModuleDraft.declareGlobal, List.map_append]
    refine List.nodup_append.2 ⟨h.distinct, by simp, ?_⟩
    intro name hn other ho he
    rw [he, List.mem_singleton.1 ho, Typed.Decl.name_of_global? hg] at hn
    obtain ⟨g', hg', hname⟩ := List.mem_map.1 hn
    rcases h.origin g' hg' with hd | ⟨n, text, -, rfl⟩
    · exact hnew (hname ▸ name_mem hd)
    · exact ha n hname.symm
  vars e he g' hg' := by
    simp only [ModuleDraft.declareGlobal]
    rcases List.mem_append.1 he with he | he
    · exact List.mem_append_left _ (h.vars e he g' hg')
    · rw [List.mem_singleton.1 he, hg] at hg'
      cases hg'
      simp
  pooled ht := List.mem_append_left _ (h.pooled ht)
  origin g' hg' := by
    simp only [ModuleDraft.declareGlobal] at hg' ⊢
    rcases List.mem_append.1 hg' with hg' | hg'
    · rcases h.origin g' hg' with ⟨e, he, hge⟩ | hp
      · exact .inl ⟨e, List.mem_append_left _ he, hge⟩
      · exact .inr hp
    · rw [List.mem_singleton.1 hg']
      exact .inl ⟨d, by simp, hg⟩
  names := h.names.trans (by rw [List.map_append]; exact List.sublist_append_left _ _)
  functions hd := by
    rcases List.mem_append.1 hd with hd | hd
    · exact h.functions hd
    · rw [← List.mem_singleton.1 hd] at hg
      cases hg

theorem withFunction {name : Bytes} {params : List Typed.Param} {body : List Typed.Stmt}
    {result : Option Typed.Result} {F : Function} (h : Built ds m) (hn : F.name = name)
    (hp : paramRegisters params = .ok F.params)
    (hl : Lowered m.pool F (lowerBody params F.params body result)) :
    Built (ds ++ [.fun_ name params body result]) (m.withFunction F) where
  externals := h.externals
  addresses := h.addresses
  distinct := h.distinct
  vars e he g hg := by
    rcases List.mem_append.1 he with he | he
    · exact h.vars e he g hg
    · rw [List.mem_singleton.1 he] at hg
      cases hg
  pooled := h.pooled
  origin g hg := by
    rcases h.origin g hg with ⟨e, he, hge⟩ | hp
    · exact .inl ⟨e, List.mem_append_left _ he, hge⟩
    · exact .inr hp
  names := by
    simp only [ModuleDraft.withFunction, List.map_append]
    refine h.names.append ?_
    rw [List.map_singleton, List.map_singleton, hn]
    exact List.Sublist.refl _
  functions {name' params' body' result'} hd := by
    simp only [ModuleDraft.withFunction]
    rcases List.mem_append.1 hd with hd | hd
    · obtain ⟨F', hF', hrest⟩ := h.functions hd
      exact ⟨F', List.mem_append_left _ hF', hrest⟩
    · cases List.mem_singleton.1 hd
      exact ⟨F, by simp, hn, hp, hl⟩

theorem lowerDecl {m' : ModuleDraft} (h : Built ds m) (ha : ∀ e ∈ ds ++ [d], Apart e.name)
    (hnew : d.name ∉ ds.map Typed.Decl.name) (hd : lowerDecl m d = .ok m') :
    Built (ds ++ [d]) m' := by
  rcases Lowering.lowerDecl_ok hd with ⟨g, hg, rfl⟩ |
    ⟨name, params, body, result, F, s, rfl, hn, hp, -, hs, hb, rfl⟩
  · exact h.declareGlobal hg hnew (ha d (by simp))
  · obtain ⟨added, hadds⟩ := Lowering.lowerBody_adds hs
    obtain ⟨texts, ht⟩ := hadds.module
    have hm : s.module = m.withPool texts := ht
    have hw := h.withPool (fun e he ↦ ha e (List.mem_append_left _ he)) texts
    rw [hm]
    exact hw.withFunction hn hp ⟨m, s, hs, hb, hm ▸ List.prefix_rfl, h.addresses⟩

theorem step {rest : List Typed.Decl} {m' : ModuleDraft}
    (hn : ((ds ++ d :: rest).map Typed.Decl.name).Nodup) (ha : ∀ e ∈ ds ++ d :: rest, Apart e.name)
    (h : Built ds m) (hd : Lowering.lowerDecl m d = .ok m') : Built (ds ++ [d]) m' := by
  rw [List.map_append, List.map_cons] at hn
  refine h.lowerDecl (fun e he ↦ ha e ?_) (fun hm ↦ ?_) hd
  · simp only [List.mem_append, List.mem_cons] at he ⊢
    tauto
  · exact List.disjoint_of_nodup_append hn hm List.mem_cons_self

end Built

theorem built_decls {id : Bytes} {ds : List Typed.Decl} {m : ModuleDraft}
    (hn : (ds.map Typed.Decl.name).Nodup) (ha : ∀ d ∈ ds, Apart d.name)
    (h : ds.foldlM Lowering.lowerDecl (start id) = .ok m) : Built ds m := by
  refine Lowering.foldlM_lowerDecl ?_ (List.nil_append ds).symm (built_start id) h
  intro before d rest m m' hall hb hd
  subst hall
  exact hb.step hn ha hd

end PZero.Refinement
