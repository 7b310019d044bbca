import PZero.Lowering.Program
import PZero.Proofs.Surface.Parts
import PZero.Typing.Check

namespace PZero.Typing

/-- Problems without their places. -/
def told (findings : List Finding) : List Problem := findings.map Finding.problem

@[simp] theorem told_nil : told [] = [] := rfl

@[simp] theorem told_cons (finding : Finding) (findings : List Finding) :
    told (finding :: findings) = finding.problem :: told findings := rfl

@[simp] theorem told_append (findings findings' : List Finding) :
    told (findings ++ findings') = told findings ++ told findings' := List.map_append

@[simp] theorem told_blame (condition : Bool) (place : Span) (problem : Problem) :
    told (blame condition place problem) = if condition then [problem] else [] := by
  cases condition <;> rfl

/-- One result, and the same problems at whatever places. -/
def Same {α : Type} (r r' : α × List Finding) : Prop := r.1 = r'.1 ∧ told r.2 = told r'.2

theorem same_intLiteral (text : Bytes) (negative : Bool) (place place' : Span) :
    Same (intLiteral text negative place) (intLiteral text negative place') := by
  simp only [Same, intLiteral]
  cases readInt? (shown text negative) with
  | none => exact ⟨rfl, rfl⟩
  | some v =>
    dsimp only
    split <;> exact ⟨rfl, rfl⟩

theorem same_floatLiteral (text : Bytes) (negative : Bool) (place place' : Span) :
    Same (floatLiteral text negative place) (floatLiteral text negative place') := by
  simp only [Same, floatLiteral]
  cases Binary.Numeral.read? (shown text negative) with
  | none => exact ⟨rfl, rfl⟩
  | some n =>
    dsimp only
    split <;> exact ⟨rfl, rfl⟩

theorem same_initializer (e : Surface.Expr) : Same (initializer e.bare) (initializer e) := by
  cases e with
  | int text place => exact same_intLiteral ..
  | float text place => exact same_floatLiteral ..
  | unary op operand place =>
    cases operand with
    | int text inner => exact same_intLiteral ..
    | float text inner => exact same_floatLiteral ..
    | _ => exact ⟨rfl, rfl⟩
  | _ => exact ⟨rfl, rfl⟩

theorem initializerType_bare : ∀ e : Surface.Expr, initializerType e.bare = initializerType e
  | .unary _ operand _ => by
    rw [Surface.Expr.bare, initializerType, initializerType, initializerType_bare operand]
  | .bool .. | .int .. | .float .. | .conditional .. | .binary .. | .binaryUnknown .. | .call ..
  | .ident .. | .paren .. | .string .. => by
    simp only [Surface.Expr.bare, initializerType]

theorem told_binaryProblems (op : BinaryOp) (left right : ValueType)
    (p q place p' q' place' : Span) :
    told (binaryProblems op left right p q place)
      = told (binaryProblems op left right p' q' place') := by
  cases op <;> simp only [binaryProblems, operandProblem, told_append, told_blame]

theorem told_argumentTypeProblems (callee : Bytes) (first : Nat) (params types : List ValueType)
    {places places' : List Span} (h : places.length = places'.length) :
    told (argumentTypeProblems callee first params (types.zip places))
      = told (argumentTypeProblems callee first params (types.zip places')) := by
  induction types generalizing first params places places' with
  | nil => rw [List.zip_nil_left, List.zip_nil_left]
  | cons got types ih =>
    cases places with
    | nil => rw [List.eq_nil_of_length_eq_zero h.symm]
    | cons place places =>
      cases places' with
      | nil => cases h
      | cons place' places' =>
        cases params with
        | nil => simp only [argumentTypeProblems]
        | cons wanted params =>
          simp only [List.zip_cons_cons, argumentTypeProblems, told_append, told_blame,
            ih (first + 1) params (Nat.succ.inj h)]

theorem allBare_length : ∀ es : List Surface.Expr, (Surface.Expr.allBare es).length = es.length
  | [] => by rw [Surface.Expr.allBare]
  | e :: es => by rw [Surface.Expr.allBare, List.length_cons, List.length_cons, allBare_length es]

theorem told_argumentProblems (name : Bytes) (place place' : Span) (params types : List ValueType)
    (es : List Surface.Expr) :
    told (argumentProblems ⟨name, place⟩ params
        (types.zip ((Surface.Expr.allBare es).map (·.span))))
      = told (argumentProblems ⟨name, place'⟩ params (types.zip (es.map (·.span)))) := by
  have hlength : ((Surface.Expr.allBare es).map (·.span)).length = (es.map (·.span)).length := by
    rw [List.length_map, List.length_map, allBare_length]
  simp only [argumentProblems, List.length_zip, hlength]
  split
  · exact told_argumentTypeProblems _ _ _ _ hlength
  · rfl

mutual

theorem same_checkExpr (scopes : Scopes) : ∀ e : Surface.Expr,
    Same (checkExpr scopes e.bare) (checkExpr scopes e)
  | .conditional cond then_ else_ _ => by
    obtain ⟨hc, hcf⟩ := same_checkExpr scopes cond
    obtain ⟨ht, htf⟩ := same_checkExpr scopes then_
    obtain ⟨he, hef⟩ := same_checkExpr scopes else_
    simp only [Same, Surface.Expr.bare, checkExpr, told_append, told_blame, hc, hcf, ht, htf, he,
      hef, and_self]
  | .binary op left right place => by
    obtain ⟨hl, hlf⟩ := same_checkExpr scopes left
    obtain ⟨hr, hrf⟩ := same_checkExpr scopes right
    simp only [Same, Surface.Expr.bare, checkExpr, told_append, hl, hlf, hr, hrf, true_and]
    rw [told_binaryProblems]
  | .binaryUnknown .. => ⟨rfl, rfl⟩
  | .unary op operand place => by
    rcases negated_or_plain op operand with ⟨text, inner, rfl, rfl⟩ | hplain
    · obtain ⟨hv, hvf⟩ := same_intLiteral text true default place
      simp only [Same, Surface.Expr.bare, checkExpr, hv, hvf, and_self]
    · have hbare : ∀ text inner, op = .negate → operand.bare ≠ .int text inner := by
        intro text inner ho hi
        cases operand <;> simp at hi
        exact hplain _ _ ho rfl
      obtain ⟨hx, hxf⟩ := same_checkExpr scopes operand
      rw [Surface.Expr.bare, checkExpr_unary hplain, checkExpr_unary hbare]
      simp only [Same, told_append, told_blame, hx, hxf, and_self]
  | .call ⟨name, place⟩ args _ => by
    obtain ⟨hx, hxf⟩ := same_checkExprs scopes args
    simp only [Same, Surface.Expr.bare, checkExpr]
    cases scopes.lookup name with
    | none => exact ⟨rfl, rfl⟩
    | some binding =>
      cases binding with
      | function params result =>
        cases result with
        | some type =>
          simp only [hx, hxf, told_append, true_and]
          rw [told_argumentProblems]
        | none =>
          simp only [hx, hxf, told_append, true_and]
          rw [told_argumentProblems]
          rfl
      | _ => exact ⟨rfl, rfl⟩
  | .ident name _ => by
    simp only [Same, Surface.Expr.bare, checkExpr]
    cases scopes.lookup name with
    | none => exact ⟨rfl, rfl⟩
    | some binding => cases binding <;> exact ⟨rfl, rfl⟩
  | .paren inner _ => by
    simp only [Surface.Expr.bare, checkExpr]
    exact same_checkExpr scopes inner
  | .int text place => by
    obtain ⟨hv, hvf⟩ := same_intLiteral text false default place
    simp only [Same, Surface.Expr.bare, checkExpr, hv, hvf, and_self]
  | .float text place => by
    obtain ⟨hv, hvf⟩ := same_floatLiteral text false default place
    simp only [Same, Surface.Expr.bare, checkExpr, hv, hvf, and_self]
  | .bool .. => ⟨rfl, rfl⟩
  | .string .. => ⟨rfl, rfl⟩

theorem same_checkExprs (scopes : Scopes) : ∀ es : List Surface.Expr,
    Same (checkExprs scopes (Surface.Expr.allBare es)) (checkExprs scopes es)
  | [] => by
    rw [Surface.Expr.allBare]
    exact ⟨rfl, rfl⟩
  | e :: es => by
    obtain ⟨hx, hxf⟩ := same_checkExpr scopes e
    obtain ⟨hs, hsf⟩ := same_checkExprs scopes es
    simp only [Same, Surface.Expr.allBare, checkExprs, told_append, hx, hxf, hs, hsf, and_self]

end

theorem same_checkArg (scopes : Scopes) (e : Surface.Expr) :
    Same (checkArg scopes e.bare) (checkArg scopes e) := by
  cases e with
  | string text place =>
    simp only [Same, Surface.Expr.bare, checkArg]
    cases StringLiteral.decode text <;> exact ⟨rfl, rfl⟩
  | _ => exact same_checkExpr scopes _

theorem same_checkArgs (scopes : Scopes) (es : List Surface.Expr) :
    Same (checkArgs scopes (Surface.Expr.allBare es)) (checkArgs scopes es) := by
  induction es with
  | nil =>
    rw [Surface.Expr.allBare]
    exact ⟨rfl, rfl⟩
  | cons e es ih =>
    obtain ⟨hx, hxf⟩ := same_checkArg scopes e
    obtain ⟨hs, hsf⟩ := ih
    simp only [Same, Surface.Expr.allBare, checkArgs, told_append, hx, hxf, hs, hsf, and_self]

theorem same_checkCallStmt (scopes : Scopes) (name : Bytes) (place : Span)
    (args : List Surface.Expr) :
    Same (checkCallStmt scopes ⟨name, default⟩ (Surface.Expr.allBare args))
      (checkCallStmt scopes ⟨name, place⟩ args) := by
  obtain ⟨hx, hxf⟩ := same_checkArgs scopes args
  simp only [Same, checkCallStmt]
  cases scopes.lookup name with
  | none =>
    dsimp only
    split
    · simp only [hx, hxf, and_self]
    · exact ⟨rfl, rfl⟩
  | some binding =>
    cases binding with
    | function params result =>
      simp only [hx, hxf, told_append, told_blame, true_and]
      rw [told_argumentProblems]
    | _ => exact ⟨rfl, rfl⟩

theorem same_checkAssign (scopes : Scopes) (name : Bytes) (place : Span) (value : Surface.Expr) :
    Same (checkAssign scopes ⟨name, default⟩ value.bare)
      (checkAssign scopes ⟨name, place⟩ value) := by
  obtain ⟨hx, hxf⟩ := same_checkExpr scopes value
  simp only [Same, checkAssign, told_append, hx, hxf, true_and]
  cases scopes.lookup name with
  | none => rfl
  | some binding =>
    cases binding <;> simp only [told_blame, told_cons, told_nil]

theorem same_declare (scopes : Scopes) (name : Bytes) (place : Span) (binding : Binding) :
    Same (scopes.declare ⟨name, default⟩ binding) (scopes.declare ⟨name, place⟩ binding) := by
  cases scopes with
  | nil => exact ⟨rfl, rfl⟩
  | cons scope outer =>
    simp only [Same, Scopes.declare]
    split <;> exact ⟨rfl, rfl⟩

mutual

theorem same_checkStmt : ∀ (scopes : Scopes) (s : Surface.Stmt),
    (checkStmt scopes s.bare).1 = (checkStmt scopes s).1 ∧
      Same (checkStmt scopes s.bare).2 (checkStmt scopes s).2
  | scopes, .assign ⟨name, place⟩ value _ => by
    obtain ⟨hs, hsf⟩ := same_checkAssign scopes name place value
    simp only [Same, Surface.Stmt.bare, checkStmt, hs, hsf, and_self]
  | scopes, .decl true ⟨name, place⟩ value _ => by
    obtain ⟨hx, hxf⟩ := same_checkExpr scopes value
    obtain ⟨hd, hdf⟩ := same_declare scopes name place (.constant (checkExpr scopes value).1.type)
    simp only [Same, Surface.Stmt.bare, checkStmt, told_append, hx, hxf, hd, hdf, and_self]
  | scopes, .decl false ⟨name, place⟩ value _ => by
    obtain ⟨hx, hxf⟩ := same_checkExpr scopes value
    obtain ⟨hd, hdf⟩ := same_declare scopes name place (.variable (checkExpr scopes value).1.type)
    simp only [Same, Surface.Stmt.bare, checkStmt, told_append, hx, hxf, hd, hdf, and_self]
  | scopes, .if_ cond then_ none _ => by
    obtain ⟨hc, hcf⟩ := same_checkExpr scopes cond
    obtain ⟨ht, -, htf⟩ := same_checkStmt scopes.enter then_
    simp only [Same, Surface.Stmt.bare, checkStmt, told_append, told_blame, hc, hcf, ht, htf,
      and_self]
  | scopes, .if_ cond then_ (some else_) _ => by
    obtain ⟨hc, hcf⟩ := same_checkExpr scopes cond
    obtain ⟨ht, -, htf⟩ := same_checkStmt scopes.enter then_
    obtain ⟨he, -, hef⟩ := same_checkStmt scopes.enter else_
    simp only [Same, Surface.Stmt.bare, checkStmt, told_append, told_blame, hc, hcf, ht, htf, he,
      hef, and_self]
  | scopes, .while_ cond body _ => by
    obtain ⟨hc, hcf⟩ := same_checkExpr scopes cond
    obtain ⟨hb, -, hbf⟩ := same_checkStmt scopes.enter body
    simp only [Same, Surface.Stmt.bare, checkStmt, told_append, told_blame, hc, hcf, hb, hbf,
      and_self]
  | scopes, .block stmts _ => by
    obtain ⟨hs, -, hsf⟩ := same_checkStmts scopes.enter stmts
    simp only [Same, Surface.Stmt.bare, checkStmt, hs, hsf, and_self]
  | scopes, .call ⟨name, place⟩ args _ => by
    obtain ⟨hs, hsf⟩ := same_checkCallStmt scopes name place args
    simp only [Same, Surface.Stmt.bare, checkStmt, hs, hsf, and_self]
  | _, .empty _ => ⟨rfl, rfl, rfl⟩

theorem same_checkStmts : ∀ (scopes : Scopes) (ss : List Surface.Stmt),
    (checkStmts scopes (Surface.Stmt.allBare ss)).1 = (checkStmts scopes ss).1 ∧
      Same (checkStmts scopes (Surface.Stmt.allBare ss)).2 (checkStmts scopes ss).2
  | scopes, [] => by
    rw [Surface.Stmt.allBare]
    exact ⟨rfl, rfl, rfl⟩
  | scopes, s :: ss => by
    obtain ⟨ht, hscopes, htf⟩ := same_checkStmt scopes s
    obtain ⟨hts, hscopes', htsf⟩ := same_checkStmts (checkStmt scopes s).2.1 ss
    simp only [Same, Surface.Stmt.allBare, checkStmts, told_append, ht, hscopes, htf, hts,
      hscopes', htsf, and_self]

end

theorem same_declareParams (scopes : Scopes) (params : List Surface.Param) :
    Same (declareParams scopes (params.map Surface.Param.bare)) (declareParams scopes params) := by
  induction params generalizing scopes with
  | nil => exact ⟨rfl, rfl⟩
  | cons p ps ih =>
    obtain ⟨hd, hdf⟩ :=
      same_declare scopes p.name.name p.name.span (.variable (valueType p.type.name))
    obtain ⟨hs, hsf⟩ := ih (scopes.declare p.name (.variable (valueType p.type.name))).1
    simp only [Same, List.map_cons, declareParams, Surface.Param.bare, told_append, hd, hdf]
      at hs hsf ⊢
    exact ⟨hs, by rw [hsf]⟩

theorem typedParams_bare (params : List Surface.Param) :
    typedParams (params.map Surface.Param.bare) = typedParams params := by
  rw [typedParams, typedParams, List.map_map]
  rfl

theorem same_checkResult (scopes : Scopes) (name : Bytes) (place : Span)
    (result : Option Surface.Result) :
    Same (checkResult scopes ⟨name, default⟩ (result.map Surface.Result.bare))
      (checkResult scopes ⟨name, place⟩ result) := by
  cases result with
  | none => exact ⟨rfl, rfl⟩
  | some result =>
    obtain ⟨hx, hxf⟩ := same_checkExpr scopes result.value
    simp only [Same, Option.map_some, checkResult, Surface.Result.bare, told_append, told_blame, hx,
      hxf, and_self]

theorem same_checkDecl (scopes : Scopes) (d : Surface.Decl) :
    Same (checkDecl scopes d.bare) (checkDecl scopes d) := by
  cases d with
  | var isConst name value place =>
    obtain ⟨hv, hvf⟩ := same_initializer value
    cases isConst <;> simp only [Same, Surface.Decl.bare, checkDecl, hv, hvf, and_self]
  | fun_ name params body result place =>
    obtain ⟨hp, hpf⟩ := same_declareParams scopes.enter params
    obtain ⟨hs, hscopes, hsf⟩ := same_checkStmts (declareParams scopes.enter params).1 body
    obtain ⟨hr, hrf⟩ := same_checkResult
      (checkStmts (declareParams scopes.enter params).1 body).2.1 name.name name.span result
    simp only [Same, Surface.Decl.bare, checkDecl, told_append, typedParams_bare, hp, hpf, hs,
      hscopes, hsf, hr, hrf, and_self]

theorem same_checkDecls (scopes : Scopes) (ds : List Surface.Decl) :
    Same (checkDecls scopes (ds.map Surface.Decl.bare)) (checkDecls scopes ds) := by
  induction ds with
  | nil => exact ⟨rfl, rfl⟩
  | cons d ds ih =>
    obtain ⟨ht, htf⟩ := same_checkDecl scopes d
    obtain ⟨hts, htsf⟩ := ih
    simp only [Same, List.map_cons, checkDecls, told_append, ht, htf, hts, htsf, and_self]

theorem ident_bare (d : Surface.Decl) : d.bare.ident.name = d.ident.name := by
  cases d <;> rfl

theorem isMain_bare (d : Surface.Decl) : isMain d.bare = isMain d := by
  rw [isMain, isMain, ident_bare]

theorem declBinding_bare (d : Surface.Decl) : declBinding d.bare = declBinding d := by
  cases d with
  | var isConst name value place =>
    cases isConst <;> simp only [Surface.Decl.bare, declBinding, initializerType_bare]
  | fun_ name params body result place =>
    simp only [Surface.Decl.bare, declBinding, List.map_map, Option.map_map]
    rfl

theorem same_declareAll (scopes : Scopes) (mainSeen : Bool) (ds : List Surface.Decl) :
    Same (declareAll scopes mainSeen (ds.map Surface.Decl.bare))
      (declareAll scopes mainSeen ds) := by
  induction ds generalizing scopes mainSeen with
  | nil => exact ⟨rfl, rfl⟩
  | cons d ds ih =>
    simp only [List.map_cons, declareAll, isMain_bare, ident_bare, declBinding_bare]
    split
    · obtain ⟨hs, hsf⟩ := ih scopes true
      simp only [Same, told_append, told_blame, hs, hsf, and_self]
    · split
      · obtain ⟨hs, hsf⟩ := ih scopes mainSeen
        simp only [Same, told_cons, hs, hsf, and_self]
      · have hd : Same (scopes.declare d.bare.ident (declBinding d))
            (scopes.declare d.ident (declBinding d)) := by
          cases d <;> exact same_declare ..
        obtain ⟨hd, hdf⟩ := hd
        obtain ⟨hs, hsf⟩ := ih (scopes.declare d.ident (declBinding d)).1 mainSeen
        simp only [Same, told_append, hd, hdf, hs, hsf, and_self]

theorem splitMain_bare (program : Surface.Program) :
    splitMain (program.map Surface.Decl.bare)
      = ((splitMain program).1.map Surface.Decl.bare,
        (splitMain program).2.map Surface.Decl.bare) := by
  have hmain : isMain ∘ Surface.Decl.bare = isMain := funext isMain_bare
  rw [splitMain, splitMain, List.find?_map, List.eraseP_map, hmain]

theorem same_checkMain (scopes : Scopes) (main : Option Surface.Decl) :
    Same (checkMain scopes (main.map Surface.Decl.bare)) (checkMain scopes main) := by
  cases main with
  | none => exact ⟨rfl, rfl⟩
  | some d =>
    cases d with
    | var isConst name value place => exact ⟨rfl, rfl⟩
    | fun_ name params body result place =>
      obtain ⟨hs, -, hsf⟩ := same_checkStmts scopes.enter body
      simp only [Same, Option.map_some, Surface.Decl.bare, checkMain, told_append, told_blame, hs,
        hsf, ne_eq, List.map_eq_nil_iff, Option.isSome_map, and_self]

theorem same_checkProgram (program : Surface.Program) :
    Same (checkProgram (program.map Surface.Decl.bare)) (checkProgram program) := by
  obtain ⟨hn, hnf⟩ := same_declareAll [[]] false program
  obtain ⟨hd, hdf⟩ := same_checkDecls (declareAll [[]] false program).1 (splitMain program).2
  obtain ⟨hm, hmf⟩ := same_checkMain (declareAll [[]] false program).1 (splitMain program).1
  simp only [Same, checkProgram, splitMain_bare, told_append, hn, hnf, hd, hdf, hm, hmf, and_self]

theorem checkProgram_of_bare {program program' : Surface.Program}
    (h : program.map Surface.Decl.bare = program'.map Surface.Decl.bare) :
    Same (checkProgram program) (checkProgram program') := by
  obtain ⟨ht, hf⟩ := same_checkProgram program
  obtain ⟨ht', hf'⟩ := same_checkProgram program'
  rw [h] at ht hf
  exact ⟨ht.symm.trans ht', hf.symm.trans hf'⟩

/-- What a diagnostic says, without where. -/
def said (d : Diagnostic) : Bytes × Bytes := (d.code, d.message)

theorem said_findings (f : File) (findings : List Finding) :
    (findings.map (·.diagnostic f)).map said = (told findings).map fun problem ↦
      ((problem.code?.map Code.name).getD [], problem.message) := by
  rw [told, List.map_map, List.map_map]
  rfl

theorem said_errors (f : File) (errors : List Surface.ParseError) :
    (errors.map (·.diagnostic f)).map said = (errors.map Surface.ParseError.problem).map
      fun problem ↦ ([], problem.message) := by
  rw [List.map_map, List.map_map]
  rfl

/-- Files with the same words share their fate, whatever their names and layouts: both are accepted,
with the same typed tree, module and text of the module, or both are rejected, with the same codes
and messages in the same order. -/
theorem checkFile_layout (f g : File)
    (h : (Token.scan f.input).map Token.word = (Token.scan g.input).map Token.word) :
    (∃ typed typed', checkFile f = .ok typed ∧ checkFile g = .ok typed' ∧ typed = typed' ∧
      ∀ id, Lowering.lower id typed = Lowering.lower id typed' ∧
        (Lowering.lower id typed).map IR.Module.text
          = (Lowering.lower id typed').map IR.Module.text) ∨
      ∃ ds es, checkFile f = .error ds ∧ checkFile g = .error es ∧ ds.map said = es.map said := by
  obtain ⟨hprogram, hproblems⟩ := Surface.parse_words (Surface.scan_endsOnce _) h
  obtain ⟨htyped, htold⟩ := checkProgram_of_bare hprogram
  rcases hf : Surface.parseFile f with ⟨program, errors⟩
  rcases hg : Surface.parseFile g with ⟨program', errors'⟩
  rw [← Surface.parseFile, ← Surface.parseFile, hf, hg] at hproblems htyped htold
  dsimp only at hproblems htyped htold
  cases errors with
  | cons e errors =>
    cases errors' with
    | nil => cases hproblems
    | cons e' errors' =>
      right
      refine ⟨_, _, by rw [checkFile, hf], by rw [checkFile, hg], ?_⟩
      exact (said_errors f _).trans ((congrArg _ hproblems).trans (said_errors g _).symm)
  | nil =>
    cases errors' with
    | cons e' errors' => cases hproblems
    | nil =>
      simp only [checkFile, hf, hg]
      by_cases hc : (checkProgram program).2 = []
      · have hc' : (checkProgram program').2 = [] := by
          rw [hc] at htold
          exact List.map_eq_nil_iff.1 htold.symm
        left
        refine ⟨_, _, if_pos hc, if_pos hc', htyped, fun id ↦ ?_⟩
        rw [htyped]
        exact ⟨rfl, rfl⟩
      · have hc' : (checkProgram program').2 ≠ [] := by
          intro hn
          rw [hn] at htold
          exact hc (List.map_eq_nil_iff.1 htold)
        right
        refine ⟨_, _, if_neg hc, if_neg hc', ?_⟩
        exact (said_findings f _).trans ((congrArg _ htold).trans (said_findings g _).symm)

def dense : File :=
  ⟨ascii "dense.p0", ascii "let n=-1;fun main()\x7bif n<0 println(\"n\",n);\x7d"⟩

def airy : File :=
  ⟨ascii "airy.p0", ascii
    "let n = -1 ;\n\n// sign\nfun main ( ) \x7b\n\tif n < 0\n\t\tprintln (\"n\", n) ;\n\x7d\n"⟩

theorem airy_is_dense :
    (Token.scan dense.input).map Token.word = (Token.scan airy.input).map Token.word ∧
      ∃ typed, checkFile dense = .ok typed ∧ checkFile airy = .ok typed := by
  have hwords : (Token.scan dense.input).map Token.word =
      (Token.scan airy.input).map Token.word := by decide +kernel
  refine ⟨hwords, ?_⟩
  obtain ⟨typed, _, hd, ha, rfl, -⟩ | ⟨ds, _, hd, -⟩ := checkFile_layout dense airy hwords
  · exact ⟨typed, hd, ha⟩
  · have hs : (checkFile dense).toOption.isSome := by decide +kernel
    rw [hd] at hs
    cases hs

end PZero.Typing
