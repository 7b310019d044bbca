import PZero.Proofs.Compiled.Valid
import PZero.Proofs.Resolution.Agreement

namespace PZero

open IR Typing Lowering

theorem find?_key {α : Type} {key : α → Bytes} {items : List α} {a : α}
    (hn : (items.map key).Nodup) (ha : a ∈ items) : items.find? (key · = key a) = some a := by
  cases hf : items.find? (key · = key a) with
  | none => simpa using List.find?_eq_none.1 hf a ha
  | some b =>
    have hb : key b = key a := by simpa using List.find?_some hf
    rw [List.inj_on_of_nodup_map hn (List.mem_of_find?_eq_some hf) ha hb]

namespace Marks

/-- The marks where the functions of a program are checked: every top-level name refers to its own
declaration. -/
def top (program : Surface.Program) : Marks :=
  ⟨(declareAll [[]] false program).1.map (List.map fun x ↦ (x.1, x.2, .global x.1)), 0⟩

theorem plain_top (program : Surface.Program) :
    (top program).plain = (declareAll [[]] false program).1 := by
  simp only [top, plain, List.map_map]
  refine (List.map_congr_left fun scope _ ↦ ?_).trans (List.map_id _)
  exact (List.map_map ..).trans (List.map_id _)

/-- The marks stand at the entries of the scopes that the checker has at every point of a program,
and a lookup of the checker finds the entry from which the mark is read. -/
structure FollowChecker (program : Surface.Program) : Prop where
  top : (top program).plain = (declareAll [[]] false program).1
  enter : ∀ m : Marks, (m.step .enter).plain = m.plain.enter
  params : ∀ (m : Marks) {params : List Surface.Param} {scopes' : Scopes},
    declareParams m.plain params = (scopes', []) →
    (m.run (params.map Surface.Param.event)).plain = scopes'
  stmt : ∀ (m : Marks) {s : Surface.Stmt} {t : Typed.Stmt} {scopes' : Scopes},
    checkStmt m.plain s = (t, scopes', []) → (m.run (s.events m.plain)).plain = scopes'
  lookup : ∀ (m : Marks) (name : Bytes), m.plain.lookup name = (m.lookup name).map Prod.fst

theorem followChecker (program : Surface.Program) : FollowChecker program where
  top := plain_top program
  enter := plain_enter
  params m _ _ h := plain_run_params _ m h
  stmt m _ _ _ h := plain_run_stmt _ m h
  lookup := plain_lookup

end Marks

namespace Typing

variable {program : Surface.Program} {p : Typed.Program}

theorem check_parts (h : check program = .accepted p) :
    (program.map fun d ↦ d.ident.name).Nodup ∧
      (declareAll [[]] false program).1 = [hoisted program] ∧
      checkDecls [hoisted program] (others program) = (p.decls, []) ∧
      checkMain [hoisted program] (program.find? isMain) = (p.main, []) := by
  have hp := check_eq_accepted.1 h
  rcases ed : declareAll [[]] false program with ⟨scopes, nf⟩
  rcases er : checkDecls scopes (program.eraseP isMain) with ⟨decls, df⟩
  rcases eb : checkMain scopes (program.find? isMain) with ⟨body, mf⟩
  simp only [checkProgram, splitMain, ed, er, eb, Prod.mk.injEq, List.append_eq_nil_iff] at hp
  obtain ⟨rfl, ⟨rfl, rfl⟩, rfl⟩ := hp
  obtain ⟨hh, hs⟩ := declareAll_iff.1 ed
  rw [List.append_nil] at hs
  subst hs
  have hsplit : program.eraseP isMain = others program := (splitMain_eq hh.distinct).2
  rw [hsplit] at er
  exact ⟨hh.distinct, rfl, er, eb⟩

theorem checkDecl_name {scopes : Scopes} {d : Surface.Decl} {t : Typed.Decl}
    {findings : List Finding} (h : checkDecl scopes d = (t, findings)) : t.name = d.ident.name := by
  cases d with
  | var isConst name value span =>
    cases isConst <;>
    · cases h
      rfl
  | fun_ name params body result span =>
    cases h
    rfl

theorem checkDecls_ok {scopes : Scopes} {ds : List Surface.Decl} {ts : List Typed.Decl}
    (h : checkDecls scopes ds = (ts, [])) :
    (ts.map Typed.Decl.name = ds.map fun d ↦ d.ident.name) ∧
      ∀ d ∈ ds, ∃ t ∈ ts, checkDecl scopes d = (t, []) := by
  induction ds generalizing ts with
  | nil =>
    cases h
    exact ⟨rfl, fun d hd ↦ (List.not_mem_nil hd).elim⟩
  | cons d ds ih =>
    rcases ed : checkDecl scopes d with ⟨t, tf⟩
    rcases es : checkDecls scopes ds with ⟨ts', tsf⟩
    simp only [checkDecls, ed, es, Prod.mk.injEq, List.append_eq_nil_iff] at h
    obtain ⟨rfl, rfl, rfl⟩ := h
    obtain ⟨hn, hall⟩ := ih es
    refine ⟨by rw [List.map_cons, List.map_cons, hn, checkDecl_name ed], fun e he ↦ ?_⟩
    rcases List.mem_cons.1 he with rfl | he
    · exact ⟨t, List.mem_cons_self, ed⟩
    · obtain ⟨u, hu, hc⟩ := hall e he
      exact ⟨u, List.mem_cons_of_mem _ hu, hc⟩

theorem hoisted_names (h : checkDecls [hoisted program] (others program) = (p.decls, [])) :
    (hoisted program).map Prod.fst = (p.decls.map Typed.Decl.name).reverse := by
  rw [(checkDecls_ok h).1, hoisted, List.map_reverse, List.map_map]
  rfl

theorem checked_distinct (h : check program = .accepted p) :
    (p.decls.map Typed.Decl.name).Nodup := by
  obtain ⟨hn, -, hd, -⟩ := check_parts h
  rw [← List.nodup_reverse, ← hoisted_names hd]
  exact nodup_hoisted hn

end Typing

namespace Lowering

variable {ds ds' : List Typed.Decl} {m m' : ModuleDraft}

def Addresses (ds : List Typed.Decl) (m : ModuleDraft) : Prop :=
  ∀ x ∈ m.addresses, ∃ d ∈ ds, ∃ g, d.global? = some g ∧ x = (d.name, g.ref)

/-- A function is the code that was lowered at a draft with addresses of declarations. -/
def CodeOf (ds : List Typed.Decl) (F : Function) (code : Lower Unit) : Prop :=
  ∃ m s, Addresses ds m ∧ code ⟨m, .new F.name F.params F.result⟩ = .ok ((), s) ∧
    F.body = s.function.body

/-- What a module draft holds of the declarations that are lowered. Nothing is asked of their
names. -/
structure Records (ds : List Typed.Decl) (m : ModuleDraft) : Prop where
  addresses : Addresses ds m
  globals : ∀ d ∈ ds, ∀ g, d.global? = some g → g ∈ m.globals
  functions : ∀ {name params body result}, .fun_ name params body result ∈ ds →
    ∃ F ∈ m.functions, F.name = name ∧ paramRegisters params = .ok F.params ∧
      CodeOf ds F (lowerBody params F.params body result)

theorem Addresses.mono (h : Addresses ds m) (hs : ds ⊆ ds') : Addresses ds' m := by
  intro x hx
  obtain ⟨d, hd, hg⟩ := h x hx
  exact ⟨d, hs hd, hg⟩

theorem CodeOf.mono {F : Function} {code : Lower Unit} (h : CodeOf ds F code) (hs : ds ⊆ ds') :
    CodeOf ds' F code := by
  obtain ⟨m, s, ha, hr⟩ := h
  exact ⟨m, s, ha.mono hs, hr⟩

namespace Records

theorem declareGlobal {d : Typed.Decl} {g : Global} (h : Records ds m) (hg : d.global? = some g) :
    Records (ds ++ [d]) (m.declareGlobal g) where
  addresses := by
    intro x hx
    rcases List.mem_cons.1 hx with rfl | hx
    · exact ⟨d, by simp, g, hg, by rw [Typed.Decl.name_of_global? hg]⟩
    · exact h.addresses.mono (List.subset_append_left _ _) x hx
  globals e he g' hg' := by
    rcases List.mem_append.1 he with he | he
    · exact List.mem_append_left _ (h.globals e he g' hg')
    · rw [List.mem_singleton.1 he, hg] at hg'
      cases hg'
      exact List.mem_append_right _ List.mem_cons_self
  functions he := by
    rcases List.mem_append.1 he with he | he
    · obtain ⟨F, hF, hn, hp, hcode⟩ := h.functions he
      exact ⟨F, hF, hn, hp, hcode.mono (List.subset_append_left _ _)⟩
    · rw [← List.mem_singleton.1 he] at hg
      cases hg

theorem withFunction {F : Function} (h : Records ds m) (texts : List Bytes) :
    Records ds ((m.withPool texts).withFunction F) where
  addresses := h.addresses
  globals d hd g hg := List.mem_append_left _ (h.globals d hd g hg)
  functions hd := by
    obtain ⟨G, hG, hrest⟩ := h.functions hd
    exact ⟨G, List.mem_append_left _ hG, hrest⟩

theorem lowerDecl {d : Typed.Decl} (h : Records ds m) (hd : lowerDecl m d = .ok m') :
    Records (ds ++ [d]) m' := by
  rcases lowerDecl_ok hd with ⟨g, hg, rfl⟩ |
    ⟨name, params, body, result, F, s, rfl, hn, hp, -, hs, hb, rfl⟩
  · exact h.declareGlobal hg
  · obtain ⟨added, hadds⟩ := lowerBody_adds hs
    obtain ⟨texts, ht⟩ := hadds.module
    have hm : s.module = m.withPool texts := ht
    have hsub : ds ⊆ ds ++ [.fun_ name params body result] := List.subset_append_left _ _
    have hw : Records ds (s.module.withFunction F) := hm ▸ h.withFunction texts
    refine ⟨hw.addresses.mono hsub, fun e he g hg ↦ ?_, fun he ↦ ?_⟩
    · rcases List.mem_append.1 he with he | he
      · exact hw.globals e he g hg
      · rw [List.mem_singleton.1 he] at hg
        cases hg
    · rcases List.mem_append.1 he with he | he
      · obtain ⟨G, hG, hn', hp', hcode⟩ := hw.functions he
        exact ⟨G, hG, hn', hp', hcode.mono hsub⟩
      · cases List.mem_singleton.1 he
        exact ⟨F, List.mem_append_right _ List.mem_cons_self, hn, hp, m, s,
          h.addresses.mono hsub, hs, hb⟩

end Records

theorem records_decls {id : Bytes} (h : ds.foldlM lowerDecl (start id) = .ok m) : Records ds m := by
  have hstart : Records [] (start id) :=
    ⟨fun x hx ↦ (List.not_mem_nil hx).elim, fun d hd ↦ (List.not_mem_nil hd).elim,
      fun hd ↦ (List.not_mem_nil hd).elim⟩
  refine foldlM_lowerDecl ?_ (List.nil_append ds).symm hstart h
  intro before d rest m m' _ hm hd
  exact hm.lowerDecl hd

theorem records_lower {id : Bytes} {p : Typed.Program} {M : IR.Module} (h : lower id p = .ok M) :
    ∃ m : ModuleDraft, Records p.decls m ∧ m.build = M ∧
      ∃ F ∈ M.functions, F.name = ascii "main" ∧ CodeOf p.decls F (lowerMainBody p.main) := by
  obtain ⟨m, m', hd, hm, rfl⟩ := lower_ok h
  have hr := records_decls hd
  obtain ⟨F, s, hn, -, -, hs, hb, rfl⟩ := lowerMain_ok hm
  obtain ⟨added, hadds⟩ := lowerMainBody_adds hs
  obtain ⟨texts, ht⟩ := hadds.module
  have hmod : s.module = m.withPool texts := ht
  refine ⟨s.module.withFunction F, hmod ▸ hr.withFunction texts, rfl, F,
    List.mem_append_right _ List.mem_cons_self, hn, m, s, hr.addresses, hs, hb⟩

theorem Addresses.place (h : Addresses ds m) (hn : (ds.map Typed.Decl.name).Nodup) {name : Bytes}
    {c : Constant} (hc : m.address? name = some c) :
    name ∈ ds.map Typed.Decl.name ∧ Lowering.place ds [] (.global name) = some (.const c) := by
  obtain ⟨l₁, l₂, he, -⟩ := List.lookup_eq_some_iff.1 hc
  have hmem : (name, c) ∈ m.addresses := by
    rw [he]
    simp
  obtain ⟨d, hd, g, hg, heq⟩ := h _ hmem
  obtain ⟨rfl, rfl⟩ := Prod.mk.inj heq
  refine ⟨List.mem_map_of_mem hd, ?_⟩
  simp only [Lowering.place, find?_key hn hd, Option.bind_some, hg, Option.map_some]

theorem lookup_global {scope : Scope} {name : Bytes} (h : name ∈ scope.map Prod.fst) :
    ((scope.map fun x ↦ (x.1, x.2, Referent.global x.1)).lookup name).map Prod.snd =
      some (.global name) := by
  induction scope with
  | nil => cases h
  | cons x scope ih =>
    rw [List.map_cons, List.lookup_cons]
    cases hb : name == x.1 with
    | true =>
      rw [beq_iff_eq.1 hb]
      rfl
    | false =>
      refine ih ((List.mem_cons.1 h).resolve_left ?_)
      exact beq_eq_false_iff_ne.1 hb

variable {program : Surface.Program} {p : Typed.Program}

theorem agrees_start (h : check program = .accepted p) (ha : Addresses p.decls m) {s : Site}
    (hm : s.module = m) (hs : s.function.scopes.flatten = [])
    (hb : slots s.function.body = []) :
    Agrees p.decls ((hoisted program).map fun x ↦ (x.1, x.2, .global x.1)) 0 (Marks.top program)
      s := by
  obtain ⟨-, hscope, hd, -⟩ := check_parts h
  have hnames := hoisted_names hd
  refine ⟨⟨[], [], s.function.scopes, ?_, rfl, rfl, hs, .nil⟩, ?_, ?_, ?_⟩
  · simp only [Marks.top, hscope]
    rfl
  · rw [hb]
    rfl
  · constructor <;> simp [hb]
  · intro name c hc
    rw [hm] at hc
    obtain ⟨hmem, hp⟩ := ha.place (checked_distinct h) hc
    exact ⟨lookup_global (by rw [hnames]; simpa using hmem), hp⟩

theorem follows_of_performs (h : check program = .accepted p) (ha : Addresses p.decls m)
    {s s' : Site} (hm : s.module = m) (hs : s.function.scopes.flatten = [])
    (hb : accesses s.function.body = []) {es : List ScopeEvent} (hp : s.Performs 0 es 0 s')
    {code : List Instr} (hcode : accesses code = accesses s'.function.body) :
    Follows p.decls ((Marks.top program).accesses es) code := by
  have hslots : slots code = slots s'.function.body := by rw [slots, hcode, slots]
  obtain ⟨hagrees, added, hadded, hlog⟩ := (agrees_start h ha hm hs (slots_eq_nil hb)).performs hp
  constructor
  · rw [hslots]
    exact hagrees.numbered.distinct
  · rw [hcode, hadded, hb, hslots]
    exact hlog _ List.prefix_rfl

theorem function_follows {name : Surface.Ident} {params : List Surface.Param}
    {body : List Surface.Stmt} {result : Option Surface.Result} {span : Span} {M : IR.Module}
    {id : Bytes} (h : check program = .accepted p) (hl : lower id p = .ok M)
    (hd : .fun_ name params body result span ∈ program) :
    ∃ F ∈ M.functions, F.name = name.name ∧
      Follows p.decls ((Marks.top program).accesses
        ((Surface.Decl.fun_ name params body result span).events (Marks.top program).plain))
          F.body := by
  obtain ⟨hn, hscope, hdecls, hmain⟩ := check_parts h
  obtain ⟨m, hr, rfl, G, hG, hGn, mg, sg, hga, hgs, hgb⟩ := records_lower hl
  rw [Marks.plain_top, hscope]
  by_cases hm : name.name = ascii "main"
  · have hfind : program.find? isMain = some (.fun_ name params body result span) := by
      have hf := find?_key hn hd
      simp only [Surface.Decl.ident, hm] at hf
      exact hf
    rw [hfind] at hmain
    rcases eb : checkStmts (Scopes.enter [hoisted program]) body with ⟨ss, inner, sf⟩
    simp only [checkMain, eb, Prod.mk.injEq, List.append_eq_nil_iff, blame_eq_nil, ne_eq,
      Bool.or_eq_false_iff, decide_eq_false_iff_not, not_not, Option.isSome_eq_false_iff,
      Option.isNone_iff_eq_none] at hmain
    obtain ⟨hbody, ⟨rfl, rfl⟩, rfl⟩ := hmain
    -- without parameters and a result, `main` is checked like any other function
    have hc : checkDecl [hoisted program] (.fun_ name [] body none span) =
        (.fun_ name.name [] ss none, []) := by
      simp only [checkDecl, declareParams, eb, checkResult, typedParams, List.map_nil,
        List.append_nil]
    obtain ⟨_, _, _, ht, he⟩ := checkDecl_events hc
    cases ht
    rw [← hbody] at hgs
    obtain ⟨s₀, s₁, hs₀, hp, hcode⟩ := lowerMainBody_performs hgs
    rw [he] at hp
    refine ⟨G, hG, hGn.trans hm.symm, ?_⟩
    rw [← hgb] at hcode
    rcases hs₀ with rfl | rfl
    · exact follows_of_performs h hga rfl rfl rfl hp hcode
    · exact follows_of_performs h hga rfl rfl rfl hp hcode
  · have hmem : .fun_ name params body result span ∈ others program :=
      List.mem_filter.2 ⟨hd, decide_eq_true hm⟩
    obtain ⟨t, ht, hc⟩ := (checkDecls_ok hdecls).2 _ hmem
    obtain ⟨params', body', result', rfl, he⟩ := checkDecl_events hc
    obtain ⟨F, hF, hname, hparams, mf, sf, hfa, hfs, hfb⟩ := hr.functions ht
    have hp := lowerBody_performs hparams hfs
    rw [he] at hp
    exact ⟨F, hF, hname, follows_of_performs h hfa rfl rfl rfl hp (by rw [hfb])⟩

/-- In a program that is accepted and lowered the names mean the same to the checker and to
lowering. Whatever a function does with memory, it does at the place of the declaration that the
checker finds for the name at that point of the text; a declaration gets a slot of its own, and a
constant or a variable of the top level is the global that was made of it. Every name that is read
or assigned to is looked up once, and the access is to what the lookup gives. A statement leaves the
scopes as they were but for the one name that it may declare in the innermost of them. -/
theorem names_resolve_alike {program : Surface.Program} {p : Typed.Program} {id : Bytes}
    {M : IR.Module} (hc : check program = .accepted p) (hl : lower id p = .ok M) :
    (∀ {name params body result span}, .fun_ name params body result span ∈ program →
      ∃ F ∈ M.functions, F.name = name.name ∧
        Follows p.decls ((Marks.top program).accesses
          ((Surface.Decl.fun_ name params body result span).events (Marks.top program).plain))
            F.body) ∧
    (p.decls.map Typed.Decl.name).Nodup ∧
    (∀ d ∈ p.decls, ∀ g, d.global? = some g → g ∈ M.globals) ∧
    Marks.FollowChecker program ∧
    (∀ {type name x} {s s' : Site}, lowerExpr (.ident type name) s = .ok (x, s') →
      ∃ a, s.function.operand name s.module = .ok a ∧
        accesses s'.function.body = accesses s.function.body ++ [.load a]) ∧
    (∀ {name value} {s s' : Site}, lowerStmt (.assign name value) s = .ok ((), s') →
      ∃ x s₁ a, lowerExpr value s = .ok (x, s₁) ∧
        s₁.function.operand name s₁.module = .ok a ∧
        accesses s'.function.body = accesses s₁.function.body ++ [.store a]) ∧
    (∀ {st} {s s' : Site} {scope outer}, lowerStmt st s = .ok ((), s') →
      s.function.scopes = scope :: outer → ∃ new, s'.function.scopes = (new ++ scope) :: outer ∧
        new.map Prod.fst = declared st ∧ new.length ≤ 1) := by
  refine ⟨fun hd ↦ function_follows hc hl hd, checked_distinct hc, ?_,
    Marks.followChecker program, ?_, ?_, ?_⟩
  · obtain ⟨m, hr, rfl, -⟩ := records_lower hl
    exact hr.globals
  · intro type name x s s' h
    obtain ⟨ty, a, -, ha, h⟩ := lowerExpr_ident_ok h
    cases h
    exact ⟨a, ha, accesses_append _ _⟩
  · intro name value s s' h
    obtain ⟨x, s₁, a, hx, ha, h⟩ := lowerStmt_assign_ok h
    cases h
    exact ⟨x, s₁, a, hx, ha, accesses_append _ _⟩
  · intro st s s' scope outer h hs
    obtain ⟨new, hn, hnames⟩ := (lowerStmt_extends st h).scopes hs
    refine ⟨new, hn, hnames, ?_⟩
    rw [← List.length_map Prod.fst, hnames]
    cases st <;> simp [declared]

/-- One name for a global, a parameter and variables of blocks and of the body of `main`. -/
def shadowing : File :=
  ⟨ascii "shadowing.p0", ascii
    "let x=1;fun f(x:Int):Int\x7blet y=x;\x7blet x=y;print(x);\x7dx=y;return x;\x7d
fun main()\x7bif(x>0)let x=f(x);else x=2;let y=x;while(y>x)\x7blet x=y;y=x;\x7d\x7d"⟩

theorem shadowing_resolves : ∃ program p M, check program = .accepted p ∧ lower [] p = .ok M ∧
    M.functions.map (fun F : Function ↦ (slots F.body).length) = [3, 3] ∧
    ∀ {name params body result span}, .fun_ name params body result span ∈ program →
      ∃ F ∈ M.functions, F.name = name.name ∧
        Follows p.decls ((Marks.top program).accesses
          ((Surface.Decl.fun_ name params body result span).events (Marks.top program).plain))
            F.body := by
  obtain ⟨p, M, hf, hl, hslots⟩ := Compiled.exists_compiled (f := shadowing)
    (P := fun M ↦ M.functions.map (fun F : Function ↦ (slots F.body).length) = [3, 3])
    (by decide +kernel)
  obtain ⟨program, -, hs, hw⟩ := checkFile_eq_ok hf
  have hc : check program = .accepted p := (check_eq_accepted_iff hs).2 hw
  exact ⟨program, p, M, hc, hl, hslots, (names_resolve_alike hc hl).1⟩

end Lowering

end PZero
