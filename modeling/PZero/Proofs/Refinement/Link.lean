import PZero.Proofs.Machine.Loading
import PZero.Proofs.Refinement.Call
import PZero.Proofs.Refinement.Module
import PZero.Proofs.Typing.Acceptance

namespace PZero.Refinement

open IR Machine
open Lowering (lower lowerMain lowerMainBody globalValue)
open Typing (valueBinding valueDecl decl_cases name_of_binding? mem_decls_of_lookup exists_valueDecl
  filterMap_names)

theorem apart_of_isName {name : Bytes} (h : Surface.IsName name) : Apart name := by
  obtain ⟨⟨b, rest, rfl, hb⟩, -⟩ := h
  intro n he
  have hh := congrArg List.head? he
  rw [Symbol.pooled_head, List.head?_cons, Option.some.injEq] at hh
  subst hh
  exact absurd hb (by decide)

variable {p : Typed.Program} {id : Bytes} {M : IR.Module} {m : ModuleDraft} {F : Function}
  {limits : Limits}

theorem lower_built (hp : p.WellTyped) (ha : ∀ d ∈ p.decls, Apart d.name)
    (h : lower id p = .ok M) : ∃ m F, Built p.decls m ∧ F.name = ascii "main" ∧ F.params = [] ∧
      Lowered m.pool F (lowerMainBody p.main) ∧ M = (m.withFunction F).build := by
  obtain ⟨m, m', hd, hm, rfl⟩ := Lowering.lower_ok h
  have hb := built_decls hp.distinct ha hd
  obtain ⟨F, s, hn, hps, -, hs, hbody, rfl⟩ := Lowering.lowerMain_ok hm
  obtain ⟨added, hadds⟩ := Lowering.lowerMainBody_adds hs
  obtain ⟨texts, ht⟩ := hadds.module
  have hmod : s.module = m.withPool texts := ht
  refine ⟨s.module, F, hmod ▸ hb.withPool ha texts, hn, hps, ?_, rfl⟩
  exact ⟨m, s, hs, hbody, List.prefix_rfl, hb.addresses⟩

theorem mem_decls_of_function? {name : Bytes} {params : List Typed.Param}
    {body : List Typed.Stmt} {result : Option Typed.Result}
    (h : Semantics.function? p name = some (params, body, result)) :
    .fun_ name params body result ∈ p.decls := by
  obtain ⟨d, hd, hf⟩ := List.exists_of_findSome?_eq_some h
  cases d with
  | fun_ other ps b r =>
    simp only [Option.ite_none_right_eq_some, Option.some.injEq, Prod.mk.injEq] at hf
    obtain ⟨rfl, rfl, rfl, rfl⟩ := hf
    exact hd
  | _ => cases hf

theorem functions_nodup (hp : p.WellTyped) (hb : Built p.decls m) (hn : F.name = ascii "main") :
    ((m.functions ++ [F]).map Function.name).Nodup := by
  rw [List.map_append, List.map_singleton, hn]
  refine List.nodup_append.2 ⟨hp.distinct.sublist hb.names, List.nodup_singleton _, ?_⟩
  intro name hm other ho he
  rw [List.mem_singleton] at ho
  obtain ⟨d, hd, hdn⟩ := List.mem_map.1 (hb.names.subset hm)
  exact hp.not_main d hd (hdn.trans (he.trans ho))

theorem library_not_function (hp : p.WellTyped) (hb : Built p.decls m)
    (hn : F.name = ascii "main") {name : Bytes} (hl : name ∈ Library.names) :
    name ∉ (m.functions ++ [F]).map Function.name := by
  rw [List.map_append, List.map_singleton, hn, List.mem_append, List.mem_singleton]
  rintro (hm | rfl)
  · obtain ⟨d, hd, hdn⟩ := List.mem_map.1 (hb.names.subset hm)
    exact hp.not_library d hd (hdn ▸ hl)
  · exact absurd hl (by decide)

theorem Built.linked (hb : Built p.decls m) (hp : p.WellTyped) (ha : ∀ d ∈ p.decls, Apart d.name)
    (hn : F.name = ascii "main") (hps : F.params = [])
    (hm : Lowered m.pool F (lowerMainBody p.main)) (hu : limits.maxSteps ≤ 0) :
    Linked p m.pool (.ofModule (m.withFunction F).build limits) where
  typed := hp
  unlimited := hu
  bounded {name b} h := by
    obtain ⟨g, hg, -⟩ := (lookup_globalBlocks hb.distinct).1 h
    have hlt := (List.getElem?_eq_some_iff.1 hg).1
    exact hlt.trans_eq (length_globalBlocks m.globals).symm
  injective {name name' b} h h' := by
    obtain ⟨g, hg, rfl⟩ := (lookup_globalBlocks hb.distinct).1 h
    obtain ⟨g', hg', rfl⟩ := (lookup_globalBlocks hb.distinct).1 h'
    rw [hg] at hg'
    cases hg'
    rfl
  apart {name binding} h := by
    obtain ⟨d, hd, hbind⟩ := mem_decls_of_lookup h
    have hname : d.name = name := name_of_binding? hbind
    rw [← hname]
    exact ha d hd
  library name hl := by
    refine ⟨Image.function?_eq_none (library_not_function hp hb hn hl), ?_⟩
    change m.externals.any (·.name = name) = true
    rw [hb.externals, List.any_eq_true]
    obtain ⟨e, he, rfl⟩ := List.mem_map.1 hl
    exact ⟨e, he, by simp⟩
  functions {name params body result} h := by
    obtain ⟨G, hG, rfl, hparams, hlow⟩ := hb.functions (mem_decls_of_function? h)
    refine ⟨G, ?_, hparams, hlow⟩
    exact Image.function?_of_mem (functions_nodup hp hb hn) (List.mem_append_left _ hG)
  main := by
    refine ⟨F, ?_, hps, hm⟩
    rw [← hn]
    exact Image.function?_of_mem (functions_nodup hp hb hn)
      (List.mem_append_right _ (List.mem_singleton_self F))

variable {image : Image}

theorem loadable_literal {value : Typed.Literal} (hs : value.IsScalar) (name : Bytes)
    (isConst : Bool) :
    ∃ c v, globalValue (some value) = .ok c ∧ Semantics.Value.ofLiteral? value = some v ∧
      v.type = value.type ∧ Loadable image ⟨name, c.type, isConst, c⟩ [encode v] := by
  cases value with
  | bool b =>
    refine ⟨.bool b, .bool b, rfl, rfl, rfl, ?_, ?_, List.length_singleton⟩
    · simp [layout, Constant.type, Constant.bool, Value.zero, Value.ofInt, Value.width, isWidth]
    · simp [flatten, Image.constant, Constant.bool, integer, isWidth, Except.map, encode,
        Value.ofBool]
  | int n =>
    refine ⟨.int32 n, .int (BitVec.ofInt 32 n), rfl, rfl, rfl, ?_, ?_, List.length_singleton⟩
    · simp [layout, Constant.type, Constant.int32, Value.zero, Value.ofInt, Value.width, isWidth]
    · simp [flatten, Image.constant, Constant.int32, integer, isWidth, Except.map, encode_int]
  | float bits =>
    refine ⟨.float .single bits, .float (Binary.toSingle bits), rfl, rfl, rfl, ?_, ?_, rfl⟩
    · simp [layout, Constant.type, Value.zero, Value.width, isWidth]
    · simp [flatten, Image.constant, Except.map, encode]
  | string text => exact hs.elim

theorem flattenAll_bytes (ns : List Int) :
    flattenAll image (ns.map (Constant.int 8)) = .ok (ns.map (Value.ofInt 8)) := by
  induction ns with
  | nil => simp [flattenAll]
  | cons n ns ih =>
    simp [flattenAll, flatten, Image.constant, integer, isWidth, Except.map, ih, bind, Except.bind,
      pure, Except.pure]

theorem loadable_string (n : Nat) (text : Bytes) :
    Loadable image (ModuleDraft.poolGlobal n text) (stringCells text) where
  widths v hv := by
    simp only [ModuleDraft.poolGlobal, Constant.cString, Constant.type, layout, List.mem_flatten,
      List.mem_replicate] at hv
    obtain ⟨l, ⟨-, rfl⟩, hv⟩ := hv
    rw [List.mem_singleton.1 hv]
    rfl
  flatten := by
    let ns : List Int := text.map (fun b : UInt8 ↦ (b.toNat : Int)) ++ [0]
    have hc : Constant.cString text = .array (.int 8) (ns.map (Constant.int 8)) := by
      simp [Constant.cString, ns]
    have hv : stringCells text = ns.map (Value.ofInt 8) := by simp [stringCells, ns]
    simp only [ModuleDraft.poolGlobal, hc, flatten, hv, flattenAll_bytes]
  length := by
    simp [ModuleDraft.poolGlobal, Constant.cString, Constant.type, layout, stringCells]

theorem global?_valueDecl {isConst : Bool} {name : Bytes} {value : Typed.Literal} {c : Constant}
    (h : globalValue (some value) = .ok c) :
    (valueDecl isConst name value).global? = some ⟨name, c.type, isConst, c⟩ := by
  cases isConst <;> simp [valueDecl, Typed.Decl.global?, h, Except.toOption]

theorem Built.loadable (hb : Built p.decls m) (hp : p.WellTyped) :
    ∀ g ∈ m.globals, ∃ values, Loadable image g values := by
  intro g hg
  rcases hb.origin g hg with ⟨d, hd, hdg⟩ | ⟨n, text, -, rfl⟩
  · rcases decl_cases (hp.decls d hd) with ⟨isConst, name, value, hs, rfl⟩ |
      ⟨name, params, body, result, rfl⟩
    · obtain ⟨c, v, hc, -, -, hl⟩ := @loadable_literal image value hs name isConst
      rw [global?_valueDecl hc] at hdg
      cases hdg
      exact ⟨_, hl⟩
    · cases hdg
  · exact ⟨_, loadable_string n text⟩

theorem lookup_initial {isConst : Bool} {name : Bytes} {value : Typed.Literal}
    {v : Semantics.Value} (hp : p.WellTyped) (hd : valueDecl isConst name value ∈ p.decls)
    (hv : Semantics.Value.ofLiteral? value = some v) :
    (Semantics.initial p).lookup name = some v := by
  have hk : ((Semantics.initial p).map Prod.fst).Sublist (p.decls.map Typed.Decl.name) := by
    refine filterMap_names (fun d x hx ↦ ?_) p.decls
    cases d with
    | const other o | var other o =>
      cases o with
      | none => cases hx
      | some l =>
        obtain ⟨u, -, rfl⟩ := Option.map_eq_some_iff.1 hx
        rfl
    | fun_ | missing => cases hx
  rw [Typing.lookup_iff_mem (hp.distinct.sublist hk), Semantics.initial, List.mem_filterMap]
  refine ⟨_, hd, ?_⟩
  cases isConst <;> simp [valueDecl, hv]

theorem length_globals_ofModule (M : IR.Module) (limits : Limits) :
    (Image.ofModule M limits).globals.length = M.globals.length :=
  length_globalBlocks M.globals

theorem Built.carries (hb : Built p.decls m) (hp : p.WellTyped) {st : State}
    (hsize : st.memory.size = m.globals.length)
    (hblocks : ∀ g ∈ m.globals, ∀ values,
      Loadable (.ofModule (m.withFunction F).build limits) g values →
        ∃ b, (globalBlocks m.globals).lookup g.name = some b ∧
          st.memory[b]? = some (loadedBlock g values))
    (ho : st.output = #[]) :
    Carries p m.pool (.ofModule (m.withFunction F).build limits) ⟨Semantics.initial p, []⟩ st where
  size := by
    rw [length_globals_ofModule, hsize]
    exact Nat.le_refl _
  vars {name isConst type} h := by
    obtain ⟨value, hs, rfl, hd⟩ := exists_valueDecl hp h
    obtain ⟨c, v, hc, hv, ht, hl⟩ := loadable_literal hs name isConst
    have hg := hb.vars _ hd _ (global?_valueDecl hc)
    obtain ⟨b, hlook, hblock⟩ := hblocks _ hg _ hl
    exact ⟨v, b, lookup_initial hp hd hv, ht, hlook, _, hblock⟩
  strings {n text} h := by
    obtain ⟨b, hlook, hblock⟩ := hblocks _ (hb.pooled h) _ (loadable_string n text)
    exact ⟨b, _, hlook, hblock⟩
  output := by rw [ho]

/-- The module of a program can be loaded under all limits. Its images without a bound on the steps
are linked, and the memory carries the store that the program starts with. -/
theorem load_linked (hp : p.WellTyped) (hn : ∀ d ∈ p.decls, Surface.IsName d.name)
    (h : lower id p = .ok M) :
    ∃ pool, (∀ limits : Limits, limits.maxSteps ≤ 0 → Linked p pool (.ofModule M limits)) ∧
      ∀ limits, ∃ memory, Session.load M limits = .ok ⟨.ofModule M limits, memory, 0, 0⟩ ∧
        ∀ st : State, st.memory = memory → st.output = #[] →
          Carries p pool (.ofModule M limits) ⟨Semantics.initial p, []⟩ st := by
  have ha : ∀ d ∈ p.decls, Apart d.name := fun d hd ↦ apart_of_isName (hn d hd)
  obtain ⟨m, F, hb, hname, hps, hmain, rfl⟩ := lower_built hp ha h
  refine ⟨m.pool, fun limits ↦ hb.linked hp ha hname hps hmain, fun limits ↦ ?_⟩
  obtain ⟨memory, hload, hsize, hblocks⟩ :=
    @load_ok (m.withFunction F).build limits hb.distinct (hb.loadable hp)
  refine ⟨memory, hload, fun st hm ho ↦ ?_⟩
  subst hm
  exact hb.carries hp hsize hblocks ho

end PZero.Refinement
