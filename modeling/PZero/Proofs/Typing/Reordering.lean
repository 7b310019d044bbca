import PZero.Proofs.Typing.Acceptance

namespace PZero.Typing

namespace Scopes

/-- Scopes that make the same of every name, one by one. -/
def Alike : Scopes → Scopes → Prop :=
  List.Forall₂ fun scope scope' ↦ ∀ name, scope.lookup name = scope'.lookup name

theorem Alike.refl (scopes : Scopes) : Alike scopes scopes :=
  List.forall₂_same.2 fun _ _ _ ↦ rfl

variable {scopes scopes' : Scopes}

theorem Alike.lookup (h : Alike scopes scopes') (name : Bytes) :
    scopes.lookup name = scopes'.lookup name := by
  induction h with
  | nil => rfl
  | cons hscope _ ih =>
    simp only [Scopes.lookup, List.findSome?_cons, hscope name] at ih ⊢
    rw [ih]

theorem Alike.enter (h : Alike scopes scopes') : Alike scopes.enter scopes'.enter :=
  .cons (fun _ ↦ rfl) h

theorem Alike.declare (h : Alike scopes scopes') (name : Surface.Ident) (binding : Binding) :
    Alike (scopes.declare name binding).1 (scopes'.declare name binding).1 ∧
      (scopes.declare name binding).2 = (scopes'.declare name binding).2 := by
  cases h with
  | nil => exact ⟨.refl _, rfl⟩
  | @cons scope scope' outer outer' hscope houter =>
    simp only [Scopes.declare, hscope name.name]
    split
    · exact ⟨.cons hscope houter, rfl⟩
    · refine ⟨.cons (fun other ↦ ?_) houter, rfl⟩
      rw [List.lookup_cons, List.lookup_cons, hscope other]

end Scopes

variable {scopes scopes' : Scopes}

mutual

theorem checkExpr_congr (h : scopes.Alike scopes') : ∀ e : Surface.Expr,
    checkExpr scopes e = checkExpr scopes' e
  | .conditional cond then_ else_ _ => by
    simp only [checkExpr, checkExpr_congr h cond, checkExpr_congr h then_, checkExpr_congr h else_]
  | .binary op left right _ => by
    simp only [checkExpr, checkExpr_congr h left, checkExpr_congr h right]
  | .binaryUnknown .. => rfl
  | .unary op operand place => by
    rcases negated_or_plain op operand with ⟨text, inner, rfl, rfl⟩ | hplain
    · rfl
    · rw [checkExpr_unary hplain, checkExpr_unary hplain, checkExpr_congr h operand]
  | .call callee args _ => by
    simp only [checkExpr, h.lookup callee.name, checkExprs_congr h args]
  | .ident name _ => by simp only [checkExpr, h.lookup name]
  | .paren inner _ => checkExpr_congr h inner
  | .int .. | .float .. | .bool .. | .string .. => rfl

theorem checkExprs_congr (h : scopes.Alike scopes') : ∀ es : List Surface.Expr,
    checkExprs scopes es = checkExprs scopes' es
  | [] => rfl
  | e :: es => by simp only [checkExprs, checkExpr_congr h e, checkExprs_congr h es]

end

theorem checkArg_congr (h : scopes.Alike scopes') (e : Surface.Expr) :
    checkArg scopes e = checkArg scopes' e := by
  cases e with
  | string text place => rfl
  | _ => exact checkExpr_congr h _

theorem checkArgs_congr (h : scopes.Alike scopes') (es : List Surface.Expr) :
    checkArgs scopes es = checkArgs scopes' es := by
  induction es with
  | nil => rfl
  | cons e es ih => simp only [checkArgs, checkArg_congr h e, ih]

theorem checkCallStmt_congr (h : scopes.Alike scopes') (callee : Surface.Ident)
    (args : List Surface.Expr) :
    checkCallStmt scopes callee args = checkCallStmt scopes' callee args := by
  simp only [checkCallStmt, h.lookup callee.name, checkArgs_congr h args]

theorem checkAssign_congr (h : scopes.Alike scopes') (name : Surface.Ident)
    (value : Surface.Expr) : checkAssign scopes name value = checkAssign scopes' name value := by
  simp only [checkAssign, h.lookup name.name, checkExpr_congr h value]

/-- What is checked the same in alike scopes, and leaves alike scopes behind. -/
def Agree {α : Type} (x y : α × Scopes × List Finding) : Prop :=
  x.1 = y.1 ∧ x.2.1.Alike y.2.1 ∧ x.2.2 = y.2.2

mutual

theorem checkStmt_agree : ∀ (s : Surface.Stmt) {scopes scopes' : Scopes}, scopes.Alike scopes' →
    Agree (checkStmt scopes s) (checkStmt scopes' s)
  | .assign name value _, _, _, h => by
    simp only [Agree, checkStmt, checkAssign_congr h, true_and, and_true]
    exact h
  | .decl true name value _, scopes, scopes', h => by
    have hd := h.declare name (.constant (checkExpr scopes value).1.type)
    rw [checkExpr_congr h value] at hd
    simp only [Agree, checkStmt, checkExpr_congr h value, hd.2, true_and, and_true]
    exact hd.1
  | .decl false name value _, scopes, scopes', h => by
    have hd := h.declare name (.variable (checkExpr scopes value).1.type)
    rw [checkExpr_congr h value] at hd
    simp only [Agree, checkStmt, checkExpr_congr h value, hd.2, true_and, and_true]
    exact hd.1
  | .if_ cond then_ none _, _, _, h => by
    obtain ⟨ht, -, htf⟩ := checkStmt_agree then_ h.enter
    simp only [Agree, checkStmt, checkExpr_congr h cond, ht, htf, true_and, and_true]
    exact h
  | .if_ cond then_ (some else_) _, _, _, h => by
    obtain ⟨ht, -, htf⟩ := checkStmt_agree then_ h.enter
    obtain ⟨he, -, hef⟩ := checkStmt_agree else_ h.enter
    simp only [Agree, checkStmt, checkExpr_congr h cond, ht, htf, he, hef, true_and, and_true]
    exact h
  | .while_ cond body _, _, _, h => by
    obtain ⟨hb, -, hbf⟩ := checkStmt_agree body h.enter
    simp only [Agree, checkStmt, checkExpr_congr h cond, hb, hbf, true_and, and_true]
    exact h
  | .block stmts _, _, _, h => by
    obtain ⟨hs, -, hsf⟩ := checkStmts_agree stmts h.enter
    simp only [Agree, checkStmt, hs, hsf, true_and, and_true]
    exact h
  | .call callee args _, _, _, h => by
    simp only [Agree, checkStmt, checkCallStmt_congr h, true_and, and_true]
    exact h
  | .empty _, _, _, h => ⟨rfl, h, rfl⟩

theorem checkStmts_agree : ∀ (ss : List Surface.Stmt) {scopes scopes' : Scopes},
    scopes.Alike scopes' → Agree (checkStmts scopes ss) (checkStmts scopes' ss)
  | [], _, _, h => ⟨rfl, h, rfl⟩
  | s :: ss, _, _, h => by
    obtain ⟨ht, hscopes, htf⟩ := checkStmt_agree s h
    obtain ⟨hts, hbehind, htsf⟩ := checkStmts_agree ss hscopes
    simp only [Agree, checkStmts, ht, htf, hts, htsf, true_and, and_true]
    exact hbehind

end

theorem declareParams_agree (h : scopes.Alike scopes') (params : List Surface.Param) :
    (declareParams scopes params).1.Alike (declareParams scopes' params).1 ∧
      (declareParams scopes params).2 = (declareParams scopes' params).2 := by
  induction params generalizing scopes scopes' with
  | nil => exact ⟨h, rfl⟩
  | cons p ps ih =>
    obtain ⟨hscopes, hf⟩ := h.declare p.name (.variable (valueType p.type.name))
    obtain ⟨hbehind, hpsf⟩ := ih hscopes
    exact ⟨hbehind, congrArg₂ (· ++ ·) hf hpsf⟩

theorem checkResult_congr (h : scopes.Alike scopes') (name : Surface.Ident)
    (result : Option Surface.Result) :
    checkResult scopes name result = checkResult scopes' name result := by
  cases result with
  | none => rfl
  | some result => simp only [checkResult, checkExpr_congr h result.value]

theorem checkDecl_congr (h : scopes.Alike scopes') (d : Surface.Decl) :
    checkDecl scopes d = checkDecl scopes' d := by
  cases d with
  | var isConst name value span => cases isConst <;> rfl
  | fun_ name params body result span =>
    obtain ⟨hparams, hpf⟩ := declareParams_agree h.enter params
    obtain ⟨hs, hbehind, hsf⟩ := checkStmts_agree body hparams
    simp only [checkDecl, hpf, hs, hsf, checkResult_congr hbehind]

theorem checkMain_congr (h : scopes.Alike scopes') (main : Option Surface.Decl) :
    checkMain scopes main = checkMain scopes' main := by
  cases main with
  | none => rfl
  | some d =>
    cases d with
    | var isConst name value span => rfl
    | fun_ name params body result span =>
      obtain ⟨hs, -, hsf⟩ := checkStmts_agree body h.enter
      simp only [checkMain, hs, hsf]

theorem checkDecls_eq (scopes : Scopes) (ds : List Surface.Decl) :
    checkDecls scopes ds =
      (ds.map fun d ↦ (checkDecl scopes d).1, ds.flatMap fun d ↦ (checkDecl scopes d).2) := by
  induction ds with
  | nil => rfl
  | cons d ds ih => simp only [checkDecls, ih, List.map_cons, List.flatMap_cons]

variable {scope : Scope} {p q : Surface.Program} {t u : Typed.Program}

theorem others_perm (h : p.Perm q) : (others p).Perm (others q) := h.filter _

theorem Hoists.perm {mainSeen : Bool} (hp : Hoists scope mainSeen p) (h : p.Perm q) :
    Hoists scope mainSeen q where
  distinct := (h.map _).nodup_iff.1 hp.distinct
  not_library d hd := hp.not_library d (h.mem_iff.2 hd)
  fresh d hd := hp.fresh d ((others_perm h).mem_iff.2 hd)
  main hm d hd := hp.main hm d (h.mem_iff.2 hd)

theorem alike_hoisted (h : p.Perm q) (hp : (p.map fun d ↦ d.ident.name).Nodup) :
    Scopes.Alike [hoisted p] [hoisted q] := by
  have hq := (h.map fun d : Surface.Decl ↦ d.ident.name).nodup_iff.1 hp
  have hperm : (hoisted p).Perm (hoisted q) :=
    ((List.reverse_perm _).trans ((others_perm h).map _)).trans (List.reverse_perm _).symm
  refine .cons (fun name ↦ Option.ext fun binding ↦ ?_) .nil
  rw [lookup_iff_mem (nodup_hoisted hp), lookup_iff_mem (nodup_hoisted hq), hperm.mem_iff]

theorem main_perm (h : p.Perm q) (hp : (p.map fun d ↦ d.ident.name).Nodup) :
    (splitMain p).1 = (splitMain q).1 := by
  have hq := (h.map fun d : Surface.Decl ↦ d.ident.name).nodup_iff.1 hp
  have hmain := h.filter fun d ↦ d.ident.name = ascii "main"
  rw [← (splitMain_eq hp).1, ← (splitMain_eq hq).1] at hmain
  cases hs : (splitMain p).1 with
  | none =>
    rw [hs, Option.toList_none, List.nil_perm] at hmain
    exact (Option.toList_eq_nil_iff.1 hmain).symm
  | some d =>
    rw [hs, Option.toList_some, List.singleton_perm] at hmain
    exact (Option.toList_eq_singleton_iff.1 hmain.symm).symm

theorem checkProgram_eq (h : Hoists [] false p) :
    checkProgram p =
      (⟨(others p).map fun d ↦ (checkDecl [hoisted p] d).1,
        (checkMain [hoisted p] (splitMain p).1).1⟩,
      ((others p).flatMap fun d ↦ (checkDecl [hoisted p] d).2)
        ++ (checkMain [hoisted p] (splitMain p).1).2) := by
  have hscopes : declareAll [[]] false p = ([hoisted p], []) :=
    declareAll_iff.2 ⟨h, by rw [List.append_nil]⟩
  simp only [checkProgram, hscopes, (splitMain_eq h.distinct).2, checkDecls_eq, List.nil_append]

theorem hoists_of_accepted (h : check p = .accepted t) : Hoists [] false p := by
  rw [check_eq_accepted] at h
  have hf := congrArg Prod.snd h
  simp only [checkProgram, List.append_eq_nil_iff] at hf
  exact (declareAll_iff.1 (Prod.ext rfl hf.1.1)).1

theorem accepted_perm (h : p.Perm q) (ht : check p = .accepted t) :
    t.decls = (others p).map (fun d ↦ (checkDecl [hoisted p] d).1) ∧
      check q = .accepted
        ⟨(others q).map fun d ↦ (checkDecl [hoisted p] d).1, t.main⟩ := by
  have hp := hoists_of_accepted ht
  have halike := alike_hoisted h hp.distinct
  rw [check_eq_accepted, checkProgram_eq hp, Prod.mk.injEq, List.append_eq_nil_iff] at ht
  obtain ⟨rfl, hdecls, hmain⟩ := ht
  refine ⟨rfl, ?_⟩
  have hdecls' : ((others q).flatMap fun d ↦ (checkDecl [hoisted p] d).2) = [] := by
    rw [List.flatMap_eq_nil_iff] at hdecls ⊢
    exact fun d hd ↦ hdecls d ((others_perm h).mem_iff.2 hd)
  rw [check_eq_accepted, checkProgram_eq (hp.perm h), ← main_perm h hp.distinct,
    ← checkMain_congr halike]
  simp only [← checkDecl_congr halike, hdecls', hmain, List.append_nil]

/-- Programs with the same declarations in another order are accepted both or none, with the same
program statement, and with the same typed declarations in the order of each. -/
theorem check_perm (h : p.Perm q) :
    ((∃ t, check p = .accepted t) ↔ ∃ u, check q = .accepted u) ∧
      ∀ t u, check p = .accepted t → check q = .accepted u → u.main = t.main ∧
        ∃ elaborate : Surface.Decl → Typed.Decl,
          t.decls = (others p).map elaborate ∧ u.decls = (others q).map elaborate := by
  refine ⟨⟨?_, ?_⟩, ?_⟩
  · rintro ⟨t, ht⟩
    exact ⟨_, (accepted_perm h ht).2⟩
  · rintro ⟨u, hu⟩
    exact ⟨_, (accepted_perm h.symm hu).2⟩
  · intro t u ht hu
    obtain ⟨hdecls, hq⟩ := accepted_perm h ht
    cases hu.symm.trans hq
    exact ⟨rfl, _, hdecls, rfl⟩

theorem check_perm_sample : ∃ program typed, Surface.parseFile sample = (program, []) ∧
    check program = .accepted typed ∧ ∃ turned, check program.reverse = .accepted turned ∧
      turned.main = typed.main ∧ turned.decls = typed.decls.reverse := by
  have hc : (checkFile sample).toOption.isSome := by decide +kernel
  obtain ⟨typed, ht⟩ := Option.isSome_iff_exists.1 hc
  obtain ⟨program, hp, hs, hw⟩ := checkFile_eq_ok (ok_of_toOption ht)
  have ha : check program = .accepted typed := (check_eq_accepted_iff hs).2 hw
  obtain ⟨hiff, hsame⟩ := check_perm (List.reverse_perm program).symm
  obtain ⟨turned, hturned⟩ := hiff.1 ⟨typed, ha⟩
  obtain ⟨hmain, elaborate, hdecls, hdecls'⟩ := hsame typed turned ha hturned
  refine ⟨program, typed, hp, ha, turned, hturned, hmain, ?_⟩
  have hothers : others program.reverse = (others program).reverse := List.filter_reverse
  rw [hdecls, hdecls', hothers, List.map_reverse]

end PZero.Typing
