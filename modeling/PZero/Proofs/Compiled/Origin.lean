import PZero.Proofs.IR.Blocks
import PZero.Proofs.Refinement.Link

namespace PZero.Compiled

open IR
open Lowering (Lower Site lower lowerBody lowerDecl lowerMainBody paramRegisters resultType)
open Refinement (Apart Built apart_of_isName functions_nodup library_not_function)

/-- The names of a draft stand for declared globals. -/
def Addressed (ds : List Typed.Decl) (globals : List Global) (m : ModuleDraft) : Prop :=
  ∀ x ∈ m.addresses, ∃ g ∈ globals, (∃ d ∈ ds, d.global? = some g) ∧ x = (g.name, g.ref)

/-- The code of a function was lowered, and what it can refer to is among some globals. -/
structure Lowers (ds : List Typed.Decl) (globals : List Global) (F : Function) (code : Lower Unit)
    (m : ModuleDraft) (s : Site) : Prop where
  run : code ⟨m, .new F.name F.params F.result⟩ = .ok ((), s)
  body : F.body = s.function.body
  addresses : Addressed ds globals m
  pool : ∀ {n : Nat} {text}, s.module.pool[n]? = some text →
    ModuleDraft.poolGlobal n text ∈ globals

def IsDeclared (ds : List Typed.Decl) (globals : List Global) (F : Function) : Prop :=
  ∃ params body result m s, .fun_ F.name params body result ∈ ds ∧
    paramRegisters params = .ok F.params ∧ resultType result = .ok F.result ∧
    Lowers ds globals F (lowerBody params F.params body result) m s

def IsMain (p : Typed.Program) (globals : List Global) (F : Function) : Prop :=
  F.name = ascii "main" ∧ F.params = [] ∧ F.result = .int 32 ∧
    ∃ m s, Lowers p.decls globals F (lowerMainBody p.main) m s

section Mono

variable {ds ds' : List Typed.Decl} {globals globals' : List Global} {F : Function}
  {m : ModuleDraft}

theorem Addressed.mono (h : Addressed ds globals m) (hd : ds ⊆ ds') (hg : globals ⊆ globals') :
    Addressed ds' globals' m := by
  intro x hx
  obtain ⟨g, hm, ⟨d, hds, hdg⟩, he⟩ := h x hx
  exact ⟨g, hg hm, ⟨d, hd hds, hdg⟩, he⟩

theorem IsDeclared.mono (h : IsDeclared ds globals F) (hd : ds ⊆ ds') (hg : globals ⊆ globals') :
    IsDeclared ds' globals' F := by
  obtain ⟨params, body, result, m, s, hm, hp, hr, hl⟩ := h
  refine ⟨params, body, result, m, s, hd hm, hp, hr, hl.run, hl.body, ?_, ?_⟩
  · exact hl.addresses.mono hd hg
  · exact fun ht ↦ hg (hl.pool ht)

end Mono

/-- A module draft behind some declarations, whose functions are theirs. -/
structure Drafted (ds : List Typed.Decl) (m : ModuleDraft) : Prop where
  addresses : Addressed ds m.globals m
  functions : ∀ F ∈ m.functions, IsDeclared ds m.globals F

namespace Drafted

variable {ds : List Typed.Decl} {d : Typed.Decl} {m m' : ModuleDraft}

theorem declareGlobal {g : Global} (h : Drafted ds m) (hg : d.global? = some g) :
    Drafted (ds ++ [d]) (m.declareGlobal g) := by
  have hds : ds ⊆ ds ++ [d] := List.subset_append_left _ _
  have hgs : m.globals ⊆ (m.declareGlobal g).globals := List.subset_append_left _ _
  refine ⟨fun x hx ↦ ?_, fun F hF ↦ (h.functions F hF).mono hds hgs⟩
  rcases List.mem_cons.1 hx with rfl | hx
  · exact ⟨g, List.mem_append_right _ List.mem_cons_self, ⟨d, by simp, hg⟩, rfl⟩
  · exact h.addresses.mono hds hgs x hx

theorem lowerDecl (h : Drafted ds m) (hb : Built ds m) (ha : ∀ e ∈ ds, Apart e.name)
    (hd : lowerDecl m d = .ok m') : Drafted (ds ++ [d]) m' := by
  rcases Lowering.lowerDecl_ok hd with ⟨g, hg, rfl⟩ |
    ⟨name, params, body, result, F, s, rfl, rfl, hp, hr, hs, hF, rfl⟩
  · exact h.declareGlobal hg
  · obtain ⟨added, hadds⟩ := Lowering.lowerBody_adds hs
    obtain ⟨texts, ht⟩ := hadds.module
    have hm : s.module = m.withPool texts := ht
    have hds : ds ⊆ ds ++ [.fun_ F.name params body result] := List.subset_append_left _ _
    have hgs : m.globals ⊆ (s.module.withFunction F).globals := by
      rw [hm]
      exact List.subset_append_left _ _
    have haddr := h.addresses.mono hds hgs
    refine ⟨fun x hx ↦ haddr x (by rwa [hm] at hx), fun G hG ↦ ?_⟩
    rcases List.mem_append.1 hG with hG | hG
    · rw [hm] at hG
      exact (h.functions G hG).mono hds hgs
    · rw [List.mem_singleton.1 hG]
      refine ⟨params, body, result, m, s, by simp, hp, hr, hs, hF, haddr, ?_⟩
      rw [hm]
      exact (hb.withPool ha texts).pooled

end Drafted

theorem drafted_decls {id : Bytes} {ds : List Typed.Decl} {m : ModuleDraft}
    (hn : (ds.map Typed.Decl.name).Nodup) (ha : ∀ d ∈ ds, Apart d.name)
    (h : ds.foldlM lowerDecl (Lowering.start id) = .ok m) : Built ds m ∧ Drafted ds m := by
  have hstart : Drafted [] (Lowering.start id) :=
    ⟨fun x hx ↦ (List.not_mem_nil hx).elim, fun F hF ↦ (List.not_mem_nil hF).elim⟩
  refine Lowering.foldlM_lowerDecl (P := fun ds m ↦ Built ds m ∧ Drafted ds m) ?_
    (List.nil_append ds).symm ⟨Refinement.built_start id, hstart⟩ h
  intro before d rest m m' hall hm hd
  subst hall
  have ha' : ∀ e ∈ before, Apart e.name := fun e he ↦ ha e (List.mem_append_left _ he)
  exact ⟨hm.1.step hn ha hd, hm.2.lowerDecl hm.1 ha' hd⟩

/-- What a module of a program holds. -/
structure IsModule (p : Typed.Program) (M : IR.Module) : Prop where
  externals : M.externals = Library.externals
  globals : ∀ g ∈ M.globals, (∃ d ∈ p.decls, d.global? = some g) ∨
    ∃ n text, g = ModuleDraft.poolGlobal n text
  functions : ∀ F ∈ M.functions, IsDeclared p.decls M.globals F ∨ IsMain p M.globals F
  declared : ∀ {name params body result}, .fun_ name params body result ∈ p.decls →
    ∃ F ∈ M.functions, F.name = name ∧ paramRegisters params = .ok F.params ∧
      resultType result = .ok F.result
  names : M.names.Nodup

variable {p : Typed.Program} {id : Bytes} {M : IR.Module}

theorem pooled_not_library (n : Nat) : Symbol.pooled n ∉ Library.names := by
  intro h
  have hheads : ∀ name ∈ Library.names, name.head? ≠ some 46 := by decide
  exact hheads _ h (Symbol.pooled_head n)

theorem pooled_ne_main (n : Nat) : Symbol.pooled n ≠ ascii "main" := by
  intro h
  have hh := Symbol.pooled_head n
  rw [h] at hh
  exact absurd hh (by decide)

theorem decl_unique (hp : p.WellTyped) {d e : Typed.Decl} (hd : d ∈ p.decls) (he : e ∈ p.decls)
    (hn : d.name = e.name) : d = e :=
  List.inj_on_of_nodup_map hp.distinct hd he hn

theorem names_nodup {m : ModuleDraft} {F : Function} (hp : p.WellTyped)
    (ha : ∀ d ∈ p.decls, Apart d.name) (hb : Built p.decls m)
    (hfun : ∀ G ∈ m.functions, IsDeclared p.decls m.globals G) (hn : F.name = ascii "main") :
    (m.withFunction F).build.names.Nodup := by
  have hexternals : m.externals.map External.name = Library.names := by rw [hb.externals]; rfl
  change (m.externals.map External.name ++ (m.globals.map Global.name ++
    (m.functions ++ [F]).map Function.name)).Nodup
  rw [hexternals]
  refine List.nodup_append.2 ⟨by decide, List.nodup_append.2
    ⟨hb.distinct, functions_nodup hp hb hn, ?_⟩, ?_⟩
  · intro name hg other ho he
    subst he
    obtain ⟨g, hgm, rfl⟩ := List.mem_map.1 hg
    obtain ⟨G, hG, hname⟩ := List.mem_map.1 ho
    rcases List.mem_append.1 hG with hG | hG
    · obtain ⟨params, body, result, m', s, hdecl, -⟩ := hfun G hG
      rcases hb.origin g hgm with ⟨d, hd, hdg⟩ | ⟨n, text, -, rfl⟩
      · have heq := decl_unique hp hd hdecl ((Typed.Decl.name_of_global? hdg).symm.trans hname.symm)
        rw [heq] at hdg
        cases hdg
      · exact ha _ hdecl n hname
    · rw [List.mem_singleton.1 hG, hn] at hname
      rcases hb.origin g hgm with ⟨d, hd, hdg⟩ | ⟨n, text, -, rfl⟩
      · exact hp.not_main d hd ((Typed.Decl.name_of_global? hdg).symm.trans hname.symm)
      · exact pooled_ne_main n hname.symm
  · intro name hl other ho he
    subst he
    rcases List.mem_append.1 ho with hg | hf
    · obtain ⟨g, hgm, rfl⟩ := List.mem_map.1 hg
      rcases hb.origin g hgm with ⟨d, hd, hdg⟩ | ⟨n, text, -, rfl⟩
      · exact hp.not_library d hd (Typed.Decl.name_of_global? hdg ▸ hl)
      · exact pooled_not_library n hl
    · exact library_not_function hp hb hn hl hf

theorem isModule_of_lower (hp : p.WellTyped) (hn : ∀ d ∈ p.decls, Surface.IsName d.name)
    (h : lower id p = .ok M) : IsModule p M := by
  have ha : ∀ d ∈ p.decls, Apart d.name := fun d hd ↦ apart_of_isName (hn d hd)
  obtain ⟨m, m', hd, hm, rfl⟩ := Lowering.lower_ok h
  obtain ⟨hb, hdrafted⟩ := drafted_decls hp.distinct ha hd
  obtain ⟨F, s, hname, hps, hres, hs, hF, rfl⟩ := Lowering.lowerMain_ok hm
  obtain ⟨added, hadds⟩ := Lowering.lowerMainBody_adds hs
  obtain ⟨texts, ht⟩ := hadds.module
  have hmod : s.module = m.withPool texts := ht
  have hb' : Built p.decls s.module := hmod ▸ hb.withPool ha texts
  have hgs : m.globals ⊆ s.module.globals := by
    rw [hmod]
    exact List.subset_append_left _ _
  have hfun : ∀ G ∈ s.module.functions, IsDeclared p.decls s.module.globals G := by
    intro G hG
    rw [hmod] at hG
    exact (hdrafted.functions G hG).mono (fun _ h ↦ h) hgs
  refine ⟨hb'.externals, fun g hg ↦ ?_, fun G hG ↦ ?_, ?_, names_nodup hp ha hb' hfun hname⟩
  · rcases hb'.origin g hg with hd | ⟨n, text, -, hg⟩
    · exact .inl hd
    · exact .inr ⟨n, text, hg⟩
  · rcases List.mem_append.1 hG with hG | hG
    · exact .inl (hfun G hG)
    · rw [List.mem_singleton.1 hG]
      exact .inr ⟨hname, hps, hres, m, s, hs, hF,
        hdrafted.addresses.mono (fun _ h ↦ h) hgs, hb'.pooled⟩
  · intro name params body result hmem
    obtain ⟨G, hG, rfl, hparams, -⟩ := hb'.functions hmem
    obtain ⟨params', body', result', m', s', hdecl, -, hresult, -⟩ := hfun G hG
    cases decl_unique hp hmem hdecl rfl
    exact ⟨G, List.mem_append_left _ hG, rfl, hparams, hresult⟩

end PZero.Compiled
