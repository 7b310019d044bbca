import PZero.Proofs.Typing.Decides

namespace PZero.Typing

def others (program : Surface.Program) : Surface.Program :=
  program.filter fun d ↦ d.ident.name ≠ ascii "main"

/-- The top-level names of a program, the latest one first. -/
def hoisted (program : Surface.Program) : Scope :=
  ((others program).map fun d ↦ (d.ident.name, declBinding d)).reverse

variable {scope : Scope} {scopes' : Scopes} {program : Surface.Program} {typed : Typed.Program}

theorem isMain_iff {d : Surface.Decl} : isMain d = true ↔ d.ident.name = ascii "main" := by
  simp [isMain]

theorem main_not_library : ascii "main" ∉ Library.names := by decide

/-- What declaring all names asks of a program. -/
structure Hoists (scope : Scope) (mainSeen : Bool) (program : Surface.Program) : Prop where
  distinct : (program.map fun d ↦ d.ident.name).Nodup
  not_library : ∀ d ∈ program, d.ident.name ∉ Library.names
  fresh : ∀ d ∈ others program, d.ident.name ∉ scope.map Prod.fst
  main : mainSeen = true → ∀ d ∈ program, d.ident.name ≠ ascii "main"

theorem hoists_nil (scope : Scope) (mainSeen : Bool) : Hoists scope mainSeen [] := by
  constructor <;> simp [others]

theorem hoists_main {mainSeen : Bool} {d : Surface.Decl} {ds : Surface.Program}
    (hd : d.ident.name = ascii "main") :
    Hoists scope mainSeen (d :: ds) ↔ mainSeen = false ∧ Hoists scope true ds := by
  have ho : others (d :: ds) = others ds := by simp [others, hd]
  constructor
  · rintro ⟨hn, hl, hf, hm⟩
    rw [List.map_cons, List.nodup_cons] at hn
    refine ⟨?_, hn.2, fun e he ↦ hl e (List.mem_cons_of_mem _ he), ho ▸ hf, ?_⟩
    · cases mainSeen with
      | false => rfl
      | true => exact absurd hd (hm rfl d List.mem_cons_self)
    · intro _ e he heq
      exact hn.1 (List.mem_map.2 ⟨e, he, heq.trans hd.symm⟩)
  · rintro ⟨rfl, hn, hl, hf, hm⟩
    refine ⟨?_, ?_, ho ▸ hf, fun h ↦ absurd h Bool.false_ne_true⟩
    · rw [List.map_cons, List.nodup_cons]
      refine ⟨fun hin ↦ ?_, hn⟩
      obtain ⟨e, he, heq⟩ := List.mem_map.1 hin
      exact hm rfl e he (heq.trans hd)
    · intro e he
      rcases List.mem_cons.1 he with rfl | he
      · rw [hd]
        exact main_not_library
      · exact hl e he

theorem hoists_other {mainSeen : Bool} {d : Surface.Decl} {ds : Surface.Program}
    (hd : d.ident.name ≠ ascii "main") (hl : d.ident.name ∉ Library.names) :
    Hoists scope mainSeen (d :: ds) ↔ d.ident.name ∉ scope.map Prod.fst ∧
      Hoists ((d.ident.name, declBinding d) :: scope) mainSeen ds := by
  have ho : others (d :: ds) = d :: others ds := by simp [others, hd]
  constructor
  · rintro ⟨hn, hl, hf, hm⟩
    rw [List.map_cons, List.nodup_cons] at hn
    rw [ho] at hf
    refine ⟨hf d List.mem_cons_self, hn.2, fun e he ↦ hl e (List.mem_cons_of_mem _ he), ?_,
      fun h e he ↦ hm h e (List.mem_cons_of_mem _ he)⟩
    intro e he hin
    rcases List.mem_cons.1 hin with heq | hin
    · exact hn.1 (List.mem_map.2 ⟨e, List.mem_of_mem_filter he, heq⟩)
    · exact hf e (List.mem_cons_of_mem _ he) hin
  · rintro ⟨hfresh, hn, hls, hf, hm⟩
    refine ⟨?_, ?_, ?_, ?_⟩
    · rw [List.map_cons, List.nodup_cons]
      refine ⟨fun hin ↦ ?_, hn⟩
      obtain ⟨e, he, heq⟩ := List.mem_map.1 hin
      have heo : e ∈ others ds := by
        rw [others, List.mem_filter, decide_eq_true_eq]
        exact ⟨he, fun h ↦ hd (heq.symm.trans h)⟩
      exact hf e heo (List.mem_cons.2 (.inl heq))
    · intro e he
      rcases List.mem_cons.1 he with rfl | he
      · exact hl
      · exact hls e he
    · intro e he
      rw [ho] at he
      rcases List.mem_cons.1 he with rfl | he
      · exact hfresh
      · exact fun hin ↦ hf e he (List.mem_cons_of_mem _ hin)
    · intro h e he
      rcases List.mem_cons.1 he with rfl | he
      · exact hd
      · exact hm h e he

theorem declareAll_iff {mainSeen : Bool} :
    declareAll [scope] mainSeen program = (scopes', []) ↔
      Hoists scope mainSeen program ∧ scopes' = [hoisted program ++ scope] := by
  induction program generalizing scope mainSeen with
  | nil =>
    simp [declareAll, hoists_nil, hoisted, others, eq_comm]
  | cons d ds ih =>
    by_cases hd : d.ident.name = ascii "main"
    · have hh : hoisted (d :: ds) = hoisted ds := by simp [hoisted, others, hd]
      rcases ed : declareAll [scope] true ds with ⟨inner, df⟩
      have hi : declareAll [scope] true ds = (scopes', []) ↔ _ := ih
      rw [ed] at hi
      rw [hoists_main hd, hh, and_assoc, ← hi]
      simp only [declareAll, isMain_iff.2 hd, if_true, ed, Prod.mk.injEq, List.append_eq_nil_iff,
        blame_eq_nil]
      tauto
    · have hm : isMain d = false := by simpa [isMain] using hd
      by_cases hl : d.ident.name ∈ Library.names
      · constructor
        · intro h
          simp [declareAll, hm, hl] at h
        · rintro ⟨h, -⟩
          exact absurd hl (h.not_library d List.mem_cons_self)
      · have hh : hoisted (d :: ds) ++ scope =
            hoisted ds ++ (d.ident.name, declBinding d) :: scope := by
          simp [hoisted, others, hd]
        rw [hoists_other hd hl, hh]
        by_cases hf : d.ident.name ∈ scope.map Prod.fst
        · constructor
          · intro h
            simp [declareAll, hm, hl, declare_of_mem hf] at h
          · rintro ⟨⟨h, -⟩, -⟩
            exact absurd hf h
        · have he : declareAll [scope] mainSeen (d :: ds) =
              declareAll [(d.ident.name, declBinding d) :: scope] mainSeen ds := by
            simp [declareAll, hm, hl, declare_of_not_mem hf]
          rw [he, ih]
          simp only [hf, not_false_iff, true_and]

theorem splitMain_eq (h : (program.map fun d ↦ d.ident.name).Nodup) :
    (splitMain program).1.toList = program.filter (fun d ↦ d.ident.name = ascii "main") ∧
      (splitMain program).2 = others program := by
  induction program with
  | nil => exact ⟨rfl, rfl⟩
  | cons d ds ih =>
    rw [List.map_cons, List.nodup_cons] at h
    obtain ⟨hm, ho⟩ := ih h.2
    simp only [splitMain, others] at hm ho ⊢
    by_cases hd : d.ident.name = ascii "main"
    · have hnone : ∀ e ∈ ds, ¬e.ident.name = ascii "main" :=
        fun e he heq ↦ h.1 (List.mem_map.2 ⟨e, he, heq.trans hd.symm⟩)
      have hf : ds.filter (fun e ↦ e.ident.name = ascii "main") = [] := by
        rw [List.filter_eq_nil_iff]
        simpa using hnone
      have hk : ds.filter (fun e ↦ e.ident.name ≠ ascii "main") = ds := by
        rw [List.filter_eq_self]
        simpa using hnone
      rw [List.find?_cons_of_pos (isMain_iff.2 hd), List.eraseP_cons_of_pos (isMain_iff.2 hd),
        List.filter_cons_of_pos (by simpa using hd), List.filter_cons_of_neg (by simpa using hd),
        hf, hk]
      exact ⟨rfl, rfl⟩
    · have hb : isMain d = false := by simpa [isMain] using hd
      rw [List.find?_cons_of_neg (by simp [hb]), List.eraseP_cons_of_neg (by simp [hb]),
        List.filter_cons_of_neg (by simpa using hd), List.filter_cons_of_pos (by simpa using hd),
        hm, ho]
      exact ⟨rfl, rfl⟩

theorem checkDecls_iff (hk : Scopes.Known [scope]) {ds : List Surface.Decl}
    {ts : List Typed.Decl} (hs : ∀ d ∈ ds, d.Shaped) :
    checkDecls [scope] ds = (ts, []) ↔ List.Forall₂ (Declares scope) ds ts := by
  induction ds generalizing ts with
  | nil =>
    simp only [checkDecls, Prod.mk.injEq, and_true, List.forall₂_nil_left_iff]
    exact eq_comm
  | cons d ds ih =>
    have hd := hs d List.mem_cons_self
    have hi : ∀ {ts}, checkDecls [scope] ds = (ts, []) ↔ List.Forall₂ (Declares scope) ds ts :=
      ih fun e he ↦ hs e (List.mem_cons_of_mem _ he)
    rcases ed : checkDecl [scope] d with ⟨t, tf⟩
    rcases eds : checkDecls [scope] ds with ⟨ts', tsf⟩
    simp only [checkDecls, ed, eds, Prod.mk.injEq, List.append_eq_nil_iff]
    constructor
    · rintro ⟨rfl, rfl, rfl⟩
      exact .cons (checkDecl_sound hk hd ed) (hi.1 eds)
    · intro h
      cases h with
      | cons h₁ h₂ =>
        cases ed.symm.trans (checkDecl_complete hk hd h₁)
        cases eds.symm.trans (hi.2 h₂)
        exact ⟨rfl, rfl, rfl⟩

theorem checkMain_iff (hk : Scopes.Known [scope]) {main : Option Surface.Decl} {t : Typed.Stmt}
    (hs : ∀ d ∈ main, d.Shaped) :
    checkMain [scope] main = (t, []) ↔ Starts scope main.toList t := by
  cases main with
  | none =>
    simp only [checkMain, Prod.mk.injEq, and_true, Option.toList_none]
    constructor
    · rintro rfl
      exact .none
    · rintro ⟨⟩
      rfl
  | some d =>
    cases d with
    | var isConst name value span =>
      simp only [checkMain, Prod.mk.injEq, reduceCtorEq, and_false, Option.toList_some, false_iff]
      rintro ⟨⟩
    | fun_ name params body result span =>
      have hb := (hs _ rfl).2.2.1
      rcases eb : checkStmts [[], scope] body with ⟨ss, inner, sf⟩
      simp only [checkMain, Scopes.enter, eb, Prod.mk.injEq, List.append_eq_nil_iff, blame_eq_nil,
        Option.toList_some]
      constructor
      · rintro ⟨rfl, hsig, rfl⟩
        simp only [ne_eq, Bool.or_eq_false_iff, decide_eq_false_iff_not, not_not,
          Option.isSome_eq_false_iff, Option.isNone_iff_eq_none] at hsig
        obtain ⟨rfl, rfl⟩ := hsig
        exact .main span (checkStmts_sound body hk.enter hb eb)
      · intro h
        cases h with
        | main _ hc =>
          cases eb.symm.trans (checkStmts_complete body hk.enter hb hc)
          exact ⟨rfl, by simp, rfl⟩

theorem Declares.binding? {d : Surface.Decl} {t : Typed.Decl} (h : Declares scope d t) :
    t.binding? = some (d.ident.name, declBinding d) := by
  cases h with
  | const _ hv =>
    simp only [Typed.Decl.binding?, declBinding, hv.type_eq]
    rfl
  | var _ hv =>
    simp only [Typed.Decl.binding?, declBinding, hv.type_eq]
    rfl
  | unit => simp [Typed.Decl.binding?, declBinding, typedParams, Surface.Decl.ident]
  | value => simp [Typed.Decl.binding?, declBinding, typedParams, Surface.Decl.ident]

theorem scope_eq_hoisted (h : List.Forall₂ (Declares scope) (others program) typed.decls) :
    typed.scope = hoisted program := by
  rw [Typed.Program.scope, hoisted]
  generalize others program = ds, typed.decls = ts at h
  induction h with
  | nil => rfl
  | cons hd _ ih =>
    rw [List.filterMap_cons_some hd.binding?, List.map_cons, List.reverse_cons, List.reverse_cons,
      ih]

theorem initializerType_scalar {value : Surface.Expr} (h : value.IsInitializer) :
    initializerType value ∈ ValueType.scalars := by
  have hnumber : ∀ {number : Surface.Expr}, number.IsNumber →
      initializerType number ∈ ValueType.scalars := by
    intro number hn
    cases number with
    | int | float => simp [initializerType, ValueType.scalars]
    | _ => exact hn.elim
  cases value with
  | unary op operand span =>
    change initializerType operand ∈ _
    exact hnumber h.2
  | bool => simp [initializerType, ValueType.scalars]
  | int => exact hnumber h
  | float => exact hnumber h
  | _ => exact h.elim

theorem nodup_hoisted (h : (program.map fun d ↦ d.ident.name).Nodup) :
    ((hoisted program).map Prod.fst).Nodup := by
  rw [hoisted, List.map_reverse, List.nodup_reverse, List.map_map]
  exact h.sublist (List.filter_sublist.map _)

theorem known_hoisted (hs : Surface.Program.Shaped program)
    (hn : (program.map fun d ↦ d.ident.name).Nodup) : Scopes.Known [hoisted program] where
  distinct s hm := by
    rw [List.mem_singleton.1 hm]
    exact nodup_hoisted hn
  scalar s hm x hx type ht := by
    rw [List.mem_singleton.1 hm, hoisted, List.mem_reverse, List.mem_map] at hx
    obtain ⟨d, hd, rfl⟩ := hx
    have hd := hs d (List.mem_of_mem_filter hd)
    cases d with
    | var isConst name value span =>
      have hv := initializerType_scalar hd.2
      cases isConst <;> (rw [List.mem_singleton.1 ht]; exact hv)
    | fun_ name params body result span =>
      simp only [declBinding, Binding.types, List.mem_append, List.mem_map, Option.mem_toList,
        Option.map_eq_some_iff] at ht
      rcases ht with ⟨p, -, rfl⟩ | ⟨r, -, rfl⟩ <;> exact valueType_scalar _

theorem checkProgram_iff (hs : Surface.Program.Shaped program) :
    checkProgram program = (typed, []) ↔ WellFormed program typed := by
  have hshaped : ∀ d ∈ others program, d.Shaped := fun d hd ↦ hs d (List.mem_of_mem_filter hd)
  rcases ed : declareAll [[]] false program with ⟨scopes, nf⟩
  rcases em : splitMain program with ⟨main, rest⟩
  rcases er : checkDecls scopes rest with ⟨decls, df⟩
  rcases eb : checkMain scopes main with ⟨body, mf⟩
  have hsplit := @splitMain_eq program
  simp only [em] at hsplit
  have hmain : ∀ d ∈ main, d.Shaped := by
    intro d hd
    have hf : program.find? isMain = some d := (congrArg Prod.fst em).trans hd
    exact hs d (List.mem_of_find?_eq_some hf)
  simp only [checkProgram, ed, em, er, eb, Prod.mk.injEq, List.append_eq_nil_iff]
  constructor
  · rintro ⟨rfl, ⟨rfl, rfl⟩, rfl⟩
    obtain ⟨⟨hn, hl, -, -⟩, rfl⟩ := declareAll_iff.1 ed
    rw [List.append_nil] at er eb
    have hk := known_hoisted hs hn
    obtain ⟨hm, rfl⟩ := hsplit hn
    have hd := (checkDecls_iff hk hshaped).1 er
    have hscope : (⟨decls, body⟩ : Typed.Program).scope = hoisted program := scope_eq_hoisted hd
    refine ⟨hn, hl, hscope ▸ hd, ?_⟩
    rw [hscope, ← hm]
    exact (checkMain_iff hk hmain).1 eb
  · rintro ⟨hn, hl, hd, hm⟩
    have hscope := scope_eq_hoisted hd
    have hk := known_hoisted hs hn
    obtain ⟨hfilter, rfl⟩ := hsplit hn
    have hh : Hoists [] false program := ⟨hn, hl, by simp, fun h ↦ absurd h Bool.false_ne_true⟩
    cases ed.symm.trans (declareAll_iff.2 ⟨hh, rfl⟩)
    rw [List.append_nil] at er eb
    rw [hscope] at hd hm
    rw [← hfilter] at hm
    cases er.symm.trans ((checkDecls_iff hk hshaped).2 hd)
    cases eb.symm.trans ((checkMain_iff hk hmain).2 hm)
    exact ⟨rfl, ⟨rfl, rfl⟩, rfl⟩

theorem check_eq_accepted : check program = .accepted typed ↔
    checkProgram program = (typed, []) := by
  rcases ep : checkProgram program with ⟨t, findings⟩
  simp only [check, ep, Prod.mk.injEq]
  split
  · rename_i symbol hu
    simp only [reduceCtorEq, false_iff]
    rintro ⟨-, rfl⟩
    simp [undefinedOperator?] at hu
  · split
    · rename_i hf
      simp [hf]
    · rename_i hf
      simp [hf]

end PZero.Typing
