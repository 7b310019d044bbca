import PZero.Proofs.Typing.Expressions

namespace PZero.Typing

variable {scope : Scope} {scopes scopes' outer : Scopes}

theorem checkCallStmt_sound (hk : scopes.Known) {callee : Surface.Ident}
    {args : List Surface.Expr} {t : Typed.Stmt} (span : Span)
    (hs : Surface.Expr.AllShaped args) (h : checkCallStmt scopes callee args = (t, [])) :
    Checks scopes (.call callee args span) t scopes := by
  rcases ea : checkArgs scopes args with ⟨xs, xf⟩
  simp only [checkCallStmt, ea] at h
  split at h
  · rename_i hl
    split at h
    · rename_i hb
      simp only [Prod.mk.injEq] at h
      obtain ⟨rfl, rfl⟩ := h
      have hb' : callee.name ∈ [ascii "print", ascii "println"] := by
        simpa [isBuiltin] using hb
      exact .print span hb' ((not_resolves_iff hk).2 hl) ((checkArgs_iff hk hs).1 ea)
    · simp at h
  · simp at h
  · simp at h
  · rename_i params result hl
    simp only [Prod.mk.injEq, List.append_eq_nil_iff, blame_eq_nil, Option.isSome_eq_false_iff,
      Option.isNone_iff_eq_none] at h
    obtain ⟨rfl, ⟨rfl, hp⟩, rfl⟩ := h
    have hr : Resolves scopes callee.name (.function params none) := (resolves_iff hk).2 hl
    have hprints := (checkArgs_iff hk hs).1 ea
    rw [printedProblems_eq_nil hk hprints] at hp
    have hscalar := hr.scalar hk
    refine .call span hr ((typesAll_iff fun type ht ↦ hscalar type ?_).2 ⟨hprints, hp⟩)
    simpa [Binding.types] using ht

theorem checkCallStmt_complete (hk : scopes.Known) {callee : Surface.Ident}
    {args : List Surface.Expr} {t : Typed.Stmt} {span : Span} (hs : Surface.Expr.AllShaped args)
    (h : Checks scopes (.call callee args span) t scopes') :
    checkCallStmt scopes callee args = (t, []) ∧ scopes' = scopes := by
  cases h with
  | print _ hb hn hp =>
    have hb' : isBuiltin callee.name = true := by simpa [isBuiltin] using hb
    simp [checkCallStmt, (not_resolves_iff hk).1 hn, hb', (checkArgs_iff hk hs).2 hp]
  | call _ hr ha =>
    have hscalar : ∀ type ∈ _, type ∈ ValueType.scalars := ha.scalar hk
    obtain ⟨hp, ht⟩ := (typesAll_iff hscalar).1 ha
    have hproblems : argumentProblems callee _ _ = [] := (printedProblems_eq_nil hk hp).2 ht
    simp [checkCallStmt, (resolves_iff hk).1 hr, (checkArgs_iff hk hs).2 hp, hproblems]

theorem checkAssign_iff (hk : scopes.Known) {name : Surface.Ident} {value : Surface.Expr}
    {t : Typed.Stmt} (span : Span) (hs : value.Shaped) :
    checkAssign scopes name value = (t, []) ↔
      Checks scopes (.assign name value span) t scopes := by
  constructor
  · intro h
    rcases ev : checkExpr scopes value with ⟨x, xf⟩
    simp only [checkAssign, ev, Prod.mk.injEq, List.append_eq_nil_iff] at h
    obtain ⟨rfl, rfl, hp⟩ := h
    obtain ⟨type, ht⟩ := checkExpr_sound hk value hs ev
    split at hp <;> simp only [reduceCtorEq, blame_eq_nil] at hp
    rename_i wanted hl
    rw [ht.type_eq, clashes_eq_false (ne_unknown (ht.scalar hk))] at hp
    subst hp
    exact .assign span ht ((resolves_iff hk).2 hl)
  · intro h
    cases h with
    | assign _ ht hr =>
      have hc := (clashes_eq_false (ne_unknown (ht.scalar hk))).2 rfl
      simp [checkAssign, checkExpr_complete hk value hs ht, (resolves_iff hk).1 hr, ht.type_eq, hc]

theorem Checks.known {s : Surface.Stmt} {t : Typed.Stmt} (h : Checks scopes s t scopes')
    (hk : scopes.Known) : scopes'.Known := by
  cases h with
  | const _ ht hn => exact hk.declare hn (by simpa [Binding.types] using ht.scalar hk)
  | let_ _ ht hn => exact hk.declare hn (by simpa [Binding.types] using ht.scalar hk)
  | _ => exact hk

theorem Checks.exists_cons {s : Surface.Stmt} {t : Typed.Stmt}
    (h : Checks (scope :: outer) s t scopes') :
    ∃ scope', scopes' = scope' :: outer := by
  cases h <;> exact ⟨_, rfl⟩

theorem checkGuard_sound (hk : scopes.Known) {cond : Surface.Expr} {c : Typed.Expr}
    (hs : cond.Shaped) (ec : checkExpr scopes cond = (c, [])) (hg : clashes c.type .bool = false) :
    Types scopes cond c .bool := by
  obtain ⟨type, ht⟩ := checkExpr_sound hk cond hs ec
  rw [ht.type_eq, clashes_eq_false (ne_unknown (ht.scalar hk))] at hg
  exact hg ▸ ht

theorem checkGuard_complete {cond : Surface.Expr} {c : Typed.Expr}
    (h : Types scopes cond c .bool) : clashes c.type .bool = false := by
  rw [h.type_eq]
  rfl

mutual

theorem checkStmt_sound : ∀ (s : Surface.Stmt) {scope : Scope} {outer scopes' : Scopes}
    {t : Typed.Stmt}, Scopes.Known (scope :: outer) → s.Shaped →
    checkStmt (scope :: outer) s = (t, scopes', []) → Checks (scope :: outer) s t scopes'
  | .assign name value span, scope, outer, scopes', t, hk, hs, h => by
    rcases ea : checkAssign (scope :: outer) name value with ⟨u, uf⟩
    simp only [checkStmt, ea, Prod.mk.injEq] at h
    obtain ⟨rfl, rfl, rfl⟩ := h
    exact (checkAssign_iff hk span hs.2).1 ea
  | .decl true name value span, scope, outer, scopes', t, hk, hs, h => by
    rcases ev : checkExpr (scope :: outer) value with ⟨x, xf⟩
    rcases ed : Scopes.declare (scope :: outer) name (.constant x.type) with ⟨inner, df⟩
    simp only [checkStmt, ev, ed, Prod.mk.injEq, List.append_eq_nil_iff] at h
    obtain ⟨rfl, rfl, rfl, rfl⟩ := h
    obtain ⟨type, ht⟩ := checkExpr_sound hk value hs.2 ev
    obtain ⟨hn, rfl⟩ := declare_iff.1 ed
    rw [ht.type_eq]
    exact .const span ht hn
  | .decl false name value span, scope, outer, scopes', t, hk, hs, h => by
    rcases ev : checkExpr (scope :: outer) value with ⟨x, xf⟩
    rcases ed : Scopes.declare (scope :: outer) name (.variable x.type) with ⟨inner, df⟩
    simp only [checkStmt, ev, ed, Prod.mk.injEq, List.append_eq_nil_iff] at h
    obtain ⟨rfl, rfl, rfl, rfl⟩ := h
    obtain ⟨type, ht⟩ := checkExpr_sound hk value hs.2 ev
    obtain ⟨hn, rfl⟩ := declare_iff.1 ed
    rw [ht.type_eq]
    exact .let_ span ht hn
  | .if_ cond then_ none span, scope, outer, scopes', t, hk, hs, h => by
    rcases ec : checkExpr (scope :: outer) cond with ⟨c, cf⟩
    rcases et : checkStmt ([] :: scope :: outer) then_ with ⟨u, inner, uf⟩
    simp only [checkStmt, Scopes.enter, ec, et, Prod.mk.injEq, List.append_eq_nil_iff,
      blame_eq_nil] at h
    obtain ⟨rfl, rfl, ⟨rfl, hg⟩, rfl⟩ := h
    exact .if_ span (checkGuard_sound hk hs.1 ec hg) (checkStmt_sound then_ hk.enter hs.2 et)
  | .if_ cond then_ (some else_) span, scope, outer, scopes', t, hk, hs, h => by
    rcases ec : checkExpr (scope :: outer) cond with ⟨c, cf⟩
    rcases et : checkStmt ([] :: scope :: outer) then_ with ⟨u, inner, uf⟩
    rcases ee : checkStmt ([] :: scope :: outer) else_ with ⟨v, inner', vf⟩
    simp only [checkStmt, Scopes.enter, ec, et, ee, Prod.mk.injEq, List.append_eq_nil_iff,
      blame_eq_nil] at h
    obtain ⟨rfl, rfl, ⟨⟨rfl, hg⟩, rfl⟩, rfl⟩ := h
    exact .ifElse span (checkGuard_sound hk hs.1 ec hg)
      (checkStmt_sound then_ hk.enter hs.2.1 et) (checkStmt_sound else_ hk.enter hs.2.2 ee)
  | .while_ cond body span, scope, outer, scopes', t, hk, hs, h => by
    rcases ec : checkExpr (scope :: outer) cond with ⟨c, cf⟩
    rcases eb : checkStmt ([] :: scope :: outer) body with ⟨u, inner, uf⟩
    simp only [checkStmt, Scopes.enter, ec, eb, Prod.mk.injEq, List.append_eq_nil_iff,
      blame_eq_nil] at h
    obtain ⟨rfl, rfl, ⟨rfl, hg⟩, rfl⟩ := h
    exact .while_ span (checkGuard_sound hk hs.1 ec hg) (checkStmt_sound body hk.enter hs.2 eb)
  | .block stmts span, scope, outer, scopes', t, hk, hs, h => by
    rcases eb : checkStmts ([] :: scope :: outer) stmts with ⟨us, inner, uf⟩
    simp only [checkStmt, Scopes.enter, eb, Prod.mk.injEq] at h
    obtain ⟨rfl, rfl, rfl⟩ := h
    exact .block span (checkStmts_sound stmts hk.enter hs eb)
  | .call callee args span, scope, outer, scopes', t, hk, hs, h => by
    rcases ea : checkCallStmt (scope :: outer) callee args with ⟨u, uf⟩
    simp only [checkStmt, ea, Prod.mk.injEq] at h
    obtain ⟨rfl, rfl, rfl⟩ := h
    exact checkCallStmt_sound hk span hs.2 ea
  | .empty span, scope, outer, scopes', t, hk, hs, h => by
    simp only [checkStmt, Prod.mk.injEq, and_true] at h
    obtain ⟨rfl, rfl⟩ := h
    exact .empty span

theorem checkStmts_sound : ∀ (ss : List Surface.Stmt) {scope : Scope} {outer scopes' : Scopes}
    {ts : List Typed.Stmt}, Scopes.Known (scope :: outer) → Surface.Stmt.AllShaped ss →
    checkStmts (scope :: outer) ss = (ts, scopes', []) → ChecksAll (scope :: outer) ss ts scopes'
  | [], scope, outer, scopes', ts, hk, hs, h => by
    simp only [checkStmts, Prod.mk.injEq, and_true] at h
    obtain ⟨rfl, rfl⟩ := h
    exact .nil
  | s :: ss, scope, outer, scopes', ts, hk, hs, h => by
    rcases e : checkStmt (scope :: outer) s with ⟨u, inner, uf⟩
    rcases es : checkStmts inner ss with ⟨us, inner', usf⟩
    simp only [checkStmts, e, es, Prod.mk.injEq, List.append_eq_nil_iff] at h
    obtain ⟨rfl, rfl, rfl, rfl⟩ := h
    have hc := checkStmt_sound s hk hs.1 e
    have hk' := hc.known hk
    obtain ⟨scope', rfl⟩ := hc.exists_cons
    exact .cons hc (checkStmts_sound ss hk' hs.2 es)

end

mutual

theorem checkStmt_complete : ∀ (s : Surface.Stmt) {scopes scopes' : Scopes} {t : Typed.Stmt},
    scopes.Known → s.Shaped → Checks scopes s t scopes' → checkStmt scopes s = (t, scopes', [])
  | .assign name value span, scopes, scopes', t, hk, hs, h => by
    cases h with
    | assign _ ht hr =>
      have ha := (checkAssign_iff hk span hs.2).2 (.assign span ht hr)
      simp [checkStmt, ha]
  | .decl true name value span, _, _, _, hk, hs, .const _ ht hn => by
    simp [checkStmt, checkExpr_complete hk value hs.2 ht, ht.type_eq, declare_iff.2 ⟨hn, rfl⟩]
  | .decl false name value span, _, _, _, hk, hs, .let_ _ ht hn => by
    simp [checkStmt, checkExpr_complete hk value hs.2 ht, ht.type_eq, declare_iff.2 ⟨hn, rfl⟩]
  | .if_ cond then_ none span, _, _, _, hk, hs, .if_ _ hc ht => by
    simp [checkStmt, Scopes.enter, checkExpr_complete hk cond hs.1 hc, checkGuard_complete hc,
      checkStmt_complete then_ hk.enter hs.2 ht, blame]
  | .if_ cond then_ (some else_) span, _, _, _, hk, hs, .ifElse _ hc ht he => by
    simp [checkStmt, Scopes.enter, checkExpr_complete hk cond hs.1 hc, checkGuard_complete hc,
      checkStmt_complete then_ hk.enter hs.2.1 ht, checkStmt_complete else_ hk.enter hs.2.2 he,
      blame]
  | .while_ cond body span, _, _, _, hk, hs, .while_ _ hc hb => by
    simp [checkStmt, Scopes.enter, checkExpr_complete hk cond hs.1 hc, checkGuard_complete hc,
      checkStmt_complete body hk.enter hs.2 hb, blame]
  | .block stmts span, _, _, _, hk, hs, .block _ hb => by
    simp [checkStmt, Scopes.enter, checkStmts_complete stmts hk.enter hs hb]
  | .call callee args span, _, _, _, hk, hs, h => by
    obtain ⟨ha, rfl⟩ := checkCallStmt_complete hk hs.2 h
    simp [checkStmt, ha]
  | .empty span, _, _, _, _, _, .empty _ => by simp [checkStmt]

theorem checkStmts_complete : ∀ (ss : List Surface.Stmt) {scopes scopes' : Scopes}
    {ts : List Typed.Stmt}, scopes.Known → Surface.Stmt.AllShaped ss →
    ChecksAll scopes ss ts scopes' → checkStmts scopes ss = (ts, scopes', [])
  | [], _, _, _, _, _, .nil => by simp [checkStmts]
  | s :: ss, _, _, _, hk, hs, .cons h hs' => by
    simp [checkStmts, checkStmt_complete s hk hs.1 h,
      checkStmts_complete ss (h.known hk) hs.2 hs']

end

theorem declareParams_iff {params : List Surface.Param} :
    declareParams (scope :: outer) params = (scopes', []) ↔
      (params.map fun p ↦ p.name.name).Nodup ∧ (∀ p ∈ params, p.name.name ∉ scope.map Prod.fst) ∧
        scopes' = (Typed.paramScope (typedParams params) ++ scope) :: outer := by
  induction params generalizing scope scopes' with
  | nil =>
    simp only [declareParams, Prod.mk.injEq, and_true]
    simp [typedParams, Typed.paramScope, eq_comm]
  | cons p params ih =>
    by_cases hp : p.name.name ∈ scope.map Prod.fst
    · constructor
      · intro h
        simp [declareParams, declare_of_mem hp] at h
      · rintro ⟨-, hf, -⟩
        exact absurd hp (hf p List.mem_cons_self)
    · have hd : declareParams (scope :: outer) (p :: params) = declareParams
          (((p.name.name, .variable (valueType p.type.name)) :: scope) :: outer) params := by
        simp [declareParams, declare_of_not_mem hp]
      have hscope : Typed.paramScope (typedParams (p :: params)) ++ scope =
          Typed.paramScope (typedParams params) ++
            (p.name.name, .variable (valueType p.type.name)) :: scope := by
        simp [typedParams, Typed.paramScope]
      rw [hd, ih, hscope, List.map_cons, List.map_cons, List.nodup_cons]
      constructor
      · rintro ⟨hn, hf, rfl⟩
        refine ⟨⟨fun hm ↦ ?_, hn⟩, fun q hq ↦ ?_, rfl⟩
        · obtain ⟨q, hq, he⟩ := List.mem_map.1 hm
          exact hf q hq (List.mem_cons.2 (.inl he))
        · rcases List.mem_cons.1 hq with rfl | hq
          · exact hp
          · exact fun hm ↦ hf q hq (List.mem_cons_of_mem _ hm)
      · rintro ⟨⟨hm, hn⟩, hf, rfl⟩
        refine ⟨hn, fun q hq he ↦ ?_, rfl⟩
        rcases List.mem_cons.1 he with he | he
        · exact hm (List.mem_map.2 ⟨q, hq, he⟩)
        · exact hf q (List.mem_cons_of_mem _ hq) he

theorem valueType_scalar (name : Surface.TypeName) : valueType name ∈ ValueType.scalars := by
  cases name <;> decide

theorem known_params (hk : Scopes.Known [scope]) {params : List Surface.Param}
    (hn : (params.map fun p ↦ p.name.name).Nodup) :
    Scopes.Known [Typed.paramScope (typedParams params), scope] where
  distinct s hs := by
    rcases List.mem_cons.1 hs with rfl | hs
    · simpa [Typed.paramScope, typedParams, List.map_reverse, Function.comp_def] using hn
    · exact hk.distinct s hs
  scalar s hs := by
    rcases List.mem_cons.1 hs with rfl | hs
    · intro x hx type ht
      simp only [Typed.paramScope, typedParams, List.mem_reverse, List.mem_map] at hx
      obtain ⟨-, ⟨p, -, rfl⟩, rfl⟩ := hx
      rw [List.mem_singleton.1 ht]
      exact valueType_scalar _
    · exact hk.scalar s hs

theorem ChecksAll.known {ss : List Surface.Stmt} {ts : List Typed.Stmt}
    (h : ChecksAll scopes ss ts scopes') (hk : scopes.Known) : scopes'.Known := by
  induction ss generalizing scopes ts with
  | nil =>
    cases h
    exact hk
  | cons s ss ih =>
    cases h with
    | cons hc hcs => exact ih hcs (hc.known hk)

theorem checkDecl_sound (hk : Scopes.Known [scope]) {d : Surface.Decl} {t : Typed.Decl}
    (hs : d.Shaped) (h : checkDecl [scope] d = (t, [])) : Declares scope d t := by
  cases d with
  | var isConst name value span =>
    rcases ev : initializer value with ⟨v, vf⟩
    cases isConst with
    | true =>
      simp only [checkDecl, ev, Prod.mk.injEq] at h
      obtain ⟨rfl, rfl⟩ := h
      exact .const span ((initializer_iff hs.2).1 ev)
    | false =>
      simp only [checkDecl, ev, Prod.mk.injEq] at h
      obtain ⟨rfl, rfl⟩ := h
      exact .var span ((initializer_iff hs.2).1 ev)
  | fun_ name params body result span =>
    obtain ⟨-, -, hb, hr⟩ := hs
    rcases ep : declareParams [[], scope] params with ⟨inner, pf⟩
    rcases eb : checkStmts inner body with ⟨ss, inner', sf⟩
    rcases er : checkResult inner' name result with ⟨r, rf⟩
    simp only [checkDecl, Scopes.enter, ep, eb, er, Prod.mk.injEq, List.append_eq_nil_iff] at h
    obtain ⟨rfl, ⟨rfl, rfl⟩, rfl⟩ := h
    obtain ⟨hn, -, rfl⟩ := declareParams_iff.1 ep
    rw [List.append_nil] at eb
    have hk' := known_params hk hn
    have hbody := checkStmts_sound body hk' hb eb
    cases result with
    | none =>
      simp only [checkResult, Prod.mk.injEq, and_true] at er
      subst er
      exact .unit span hn hbody
    | some result =>
      rcases ev : checkExpr inner' result.value with ⟨x, xf⟩
      simp only [checkResult, ev, Prod.mk.injEq, List.append_eq_nil_iff, blame_eq_nil] at er
      obtain ⟨rfl, rfl, hc⟩ := er
      have hk'' := hbody.known hk'
      obtain ⟨type, ht⟩ := checkExpr_sound hk'' result.value (hr result rfl) ev
      rw [ht.type_eq, clashes_eq_false (ne_unknown (ht.scalar hk''))] at hc
      subst hc
      exact .value span hn hbody ht

theorem checkDecl_complete (hk : Scopes.Known [scope]) {d : Surface.Decl} {t : Typed.Decl}
    (hs : d.Shaped) (h : Declares scope d t) : checkDecl [scope] d = (t, []) := by
  cases h with
  | const span hv => simp [checkDecl, (initializer_iff hs.2).2 hv]
  | var span hv => simp [checkDecl, (initializer_iff hs.2).2 hv]
  | @unit name params body ss inner span hn hb =>
    have hp : declareParams [[], scope] params = (_, []) :=
      declareParams_iff.2 ⟨hn, by simp, rfl⟩
    rw [List.append_nil] at hp
    have hbody := checkStmts_complete body (known_params hk hn) hs.2.2.1 hb
    simp [checkDecl, Scopes.enter, hp, hbody, checkResult]
  | @value name params body type result ss x inner span hn hb ht =>
    have hp : declareParams [[], scope] params = (_, []) :=
      declareParams_iff.2 ⟨hn, by simp, rfl⟩
    rw [List.append_nil] at hp
    have hk' := known_params hk hn
    have hbody := checkStmts_complete body hk' hs.2.2.1 hb
    have hx := checkExpr_complete (hb.known hk') result (hs.2.2.2 _ rfl) ht
    have hc := (clashes_eq_false (ne_unknown (valueType_scalar type.name))).2 rfl
    simp [checkDecl, Scopes.enter, hp, hbody, checkResult, hx, ht.type_eq, hc]

end PZero.Typing
