import PZero.Proofs.Typing.Decides
import PZero.Surface.Parse

namespace PZero.Typing

def Code.comparisons : List Code :=
  [.unableToAssignIncompatibleTypes, .incompatibleArgumentType,
    .binaryExpressionOperandsIncompatible, .binaryExpressionRequiresOperandType,
    .unaryExpressionRequiresOperandType, .ternaryExpressionNotBoolean,
    .ternaryExpressionResultIncompatible, .ifGuardNotBoolean, .whileGuardNotBoolean,
    .functionReturnTypeMismatch]

/-- The types that a problem compares with each other or with the types that are asked for. -/
def Problem.compared : Problem → List ValueType
  | .operandsDiffer _ left right => [left, right]
  | .operandRefused _ got | .unaryOperandRefused _ got => [got]
  | .returnMismatch _ got declared => [got, declared]
  | .ifGuard got | .whileGuard got | .conditionalGuard got => [got]
  | .conditionalArmsDiffer then_ else_ => [then_, else_]
  | .argumentType _ _ wanted got => [got, wanted]
  | .assignType got _ wanted => [got, wanted]
  | _ => []

theorem compared_ne_nil_iff (problem : Problem) :
    problem.compared ≠ [] ↔ ∃ code ∈ Code.comparisons, problem.code? = some code := by
  cases problem <;> simp [Problem.compared, Problem.code?, Code.comparisons]

/-- Whether a finding compares an undetermined type. -/
def Finding.followsOn (x : Finding) : Bool := x.problem.compared.contains .unknown

def followOns (findings : List Finding) : List Finding := findings.filter Finding.followsOn

@[simp] theorem followOns_append (findings findings' : List Finding) :
    followOns (findings ++ findings') = followOns findings ++ followOns findings' :=
  List.filter_append ..

theorem followOns_eq_nil {findings : List Finding}
    (h : ∀ x ∈ findings, ValueType.unknown ∉ x.problem.compared) : followOns findings = [] := by
  rw [followOns, List.filter_eq_nil_iff]
  intro x hx hf
  exact h x hx (by simpa [Finding.followsOn] using hf)

theorem followOns_one {place : Span} {problem : Problem} (h : problem.compared = []) :
    followOns [⟨place, problem⟩] = [] :=
  followOns_eq_nil (by simp [h])

theorem followOns_blame {condition : Bool} {place : Span} {problem : Problem}
    (h : condition = true → ValueType.unknown ∉ problem.compared) :
    followOns (blame condition place problem) = [] := by
  cases condition with
  | false => rfl
  | true => exact followOns_eq_nil (by simpa [blame] using h rfl)

theorem followOns_intLiteral (text : Bytes) (negative : Bool) (place : Span) :
    followOns (intLiteral text negative place).2 = [] := by
  unfold intLiteral
  split
  · split
    · rfl
    · exact followOns_one rfl
  · exact followOns_one rfl

theorem followOns_floatLiteral (text : Bytes) (negative : Bool) (place : Span) :
    followOns (floatLiteral text negative place).2 = [] := by
  unfold floatLiteral
  split
  · dsimp only
    split
    · exact followOns_one rfl
    · rfl
  · rfl

theorem followOns_initializer (e : Surface.Expr) : followOns (initializer e).2 = [] := by
  unfold initializer
  split
  · rfl
  · exact followOns_intLiteral ..
  · exact followOns_floatLiteral ..
  · exact followOns_intLiteral ..
  · exact followOns_floatLiteral ..
  · exact followOns_one rfl
  · exact followOns_one rfl

theorem clashes_known {got wanted : ValueType} (h : clashes got wanted = true) :
    got ≠ .unknown := by
  rintro rfl
  simp [clashes] at h

theorem differ_known {a b : ValueType} (h : differ a b = true) : a ≠ .unknown ∧ b ≠ .unknown := by
  simp only [differ, Bool.and_eq_true, decide_eq_true_eq] at h
  exact h.1

theorem followOns_guard {got : ValueType} {place : Span} {problem : Problem}
    (h : problem.compared = [got]) : followOns (blame (clashes got .bool) place problem) = [] := by
  refine followOns_blame fun hc ↦ ?_
  simpa [h] using (clashes_known hc).symm

theorem followOns_operandProblem (op : BinaryOp) (accepts : ValueType → Bool) (got : ValueType)
    (place : Span) : followOns (operandProblem op accepts got place) = [] := by
  refine followOns_blame fun hc ↦ ?_
  simp only [Bool.and_eq_true, decide_eq_true_eq] at hc
  simpa [Problem.compared] using hc.1.symm

theorem followOns_binaryProblems (op : BinaryOp) (left right : ValueType) (p q place : Span) :
    followOns (binaryProblems op left right p q place) = [] := by
  have hdiffer : followOns (blame (differ left right) place (.operandsDiffer op left right)) = [] :=
    followOns_blame fun hd ↦ by
      simpa [Problem.compared, eq_comm] using differ_known hd
  cases op <;> simp [binaryProblems, followOns_operandProblem, hdiffer]

theorem followOns_argumentTypeProblems (callee : Bytes) (first : Nat) {params : List ValueType}
    (h : ValueType.unknown ∉ params) (args : List (ValueType × Span)) :
    followOns (argumentTypeProblems callee first params args) = [] := by
  induction params generalizing first args with
  | nil => rfl
  | cons wanted params ih =>
    obtain ⟨hw, hps⟩ := not_or.1 (List.mem_cons.not.1 h)
    cases args with
    | nil => rfl
    | cons arg args =>
      have hone : followOns (blame (clashes arg.1 wanted) arg.2
          (.argumentType first callee wanted arg.1)) = [] :=
        followOns_blame fun hc ↦ by
          simpa [Problem.compared, hw] using (clashes_known hc).symm
      rw [argumentTypeProblems, followOns_append, hone, ih (first + 1) hps, List.append_nil]

theorem followOns_argumentProblems (callee : Surface.Ident) {params : List ValueType}
    (h : ValueType.unknown ∉ params) (args : List (ValueType × Span)) :
    followOns (argumentProblems callee params args) = [] := by
  unfold argumentProblems
  split
  · exact followOns_argumentTypeProblems callee.name 1 h args
  · exact followOns_one rfl

/-- The parameters of functions have types that are written down. -/
structure Scopes.Declared (scopes : Scopes) : Prop where
  params : ∀ scope ∈ scopes, ∀ x ∈ scope, ∀ params result, x.2 = .function params result →
    ValueType.unknown ∉ params

theorem Scopes.Declared.lookup {scopes : Scopes} (h : scopes.Declared) {name : Bytes}
    {params : List ValueType} {result : Option ValueType}
    (hl : scopes.lookup name = some (.function params result)) : ValueType.unknown ∉ params := by
  obtain ⟨scope, hs, hx⟩ := List.exists_of_findSome?_eq_some hl
  obtain ⟨l₁, l₂, rfl, -⟩ := List.lookup_eq_some_iff.1 hx
  exact h.params _ hs (name, .function params result) (by simp) params result rfl

variable {scopes : Scopes}

mutual

theorem followOns_checkExpr (h : scopes.Declared) : ∀ e : Surface.Expr,
    followOns (checkExpr scopes e).2 = []
  | .conditional cond then_ else_ _ => by
    have harms : ∀ t e : ValueType,
        followOns (blame (differ t e) then_.span (.conditionalArmsDiffer t e)) = [] :=
      fun t e ↦ followOns_blame fun hd ↦ by
        simpa [Problem.compared, eq_comm] using differ_known hd
    have hguard : ∀ c : ValueType,
        followOns (blame (clashes c .bool) cond.span (.conditionalGuard c)) = [] :=
      fun _ ↦ followOns_guard rfl
    simp [checkExpr, followOns_checkExpr h cond, followOns_checkExpr h then_,
      followOns_checkExpr h else_, harms, hguard]
  | .binary op left right _ => by
    simp [checkExpr, followOns_checkExpr h left, followOns_checkExpr h right,
      followOns_binaryProblems]
  | .binaryUnknown .. => followOns_one rfl
  | .unary op operand place => by
    rcases negated_or_plain op operand with ⟨text, inner, rfl, rfl⟩ | hplain
    · exact followOns_intLiteral ..
    · rw [checkExpr_unary hplain, followOns_append, followOns_checkExpr h operand, List.nil_append]
      refine followOns_blame fun hc ↦ ?_
      simp only [Bool.and_eq_true, decide_eq_true_eq] at hc
      simpa [Problem.compared] using hc.1.symm
  | .call callee args _ => by
    have hargs := followOns_checkExprs h args
    rw [checkExpr]
    split
    · exact followOns_one rfl
    · exact followOns_one rfl
    · exact followOns_one rfl
    · rename_i params result hl
      have hproblems := followOns_argumentProblems callee (h.lookup hl)
      dsimp only
      split
      · rw [followOns_append, hargs, hproblems, List.append_nil]
      · rw [followOns_append, followOns_append, hargs, hproblems, followOns_one rfl]
        rfl
  | .ident name place => by
    rw [checkExpr]
    split
    · exact followOns_one rfl
    · exact followOns_one rfl
    · rfl
    · rfl
  | .paren inner _ => by
    rw [checkExpr]
    exact followOns_checkExpr h inner
  | .int .. => followOns_intLiteral ..
  | .float .. => followOns_floatLiteral ..
  | .bool .. => rfl
  | .string .. => followOns_one rfl

theorem followOns_checkExprs (h : scopes.Declared) : ∀ es : List Surface.Expr,
    followOns (checkExprs scopes es).2 = []
  | [] => rfl
  | e :: es => by simp [checkExprs, followOns_checkExpr h e, followOns_checkExprs h es]

end

theorem followOns_checkArg (h : scopes.Declared) (e : Surface.Expr) :
    followOns (checkArg scopes e).2 = [] := by
  cases e with
  | string text place =>
    rw [checkArg]
    split
    · rfl
    · exact followOns_one rfl
  | _ => exact followOns_checkExpr h _

theorem followOns_checkArgs (h : scopes.Declared) (es : List Surface.Expr) :
    followOns (checkArgs scopes es).2 = [] := by
  induction es with
  | nil => rfl
  | cons e es ih => simp [checkArgs, followOns_checkArg h e, ih]

theorem followOns_checkCallStmt (h : scopes.Declared) (callee : Surface.Ident)
    (args : List Surface.Expr) : followOns (checkCallStmt scopes callee args).2 = [] := by
  have hargs := followOns_checkArgs h args
  unfold checkCallStmt
  split
  · split
    · exact hargs
    · exact followOns_one rfl
  · exact followOns_one rfl
  · exact followOns_one rfl
  · rename_i params result hl
    have hresult : followOns (blame result.isSome callee.span
        (.valueFunctionAsStatement callee.name)) = [] := followOns_blame fun _ ↦ by
      simp [Problem.compared]
    simp [hargs, followOns_argumentProblems callee (h.lookup hl), hresult]

theorem followOns_declare (name : Surface.Ident) (binding : Binding) :
    followOns (scopes.declare name binding).2 = [] := by
  unfold Scopes.declare
  split
  · rfl
  · split
    · exact followOns_one rfl
    · rfl

/-- An assignment, with the scopes that it is checked in. -/
structure Assignment where
  scopes : Scopes
  name : Surface.Ident
  value : Surface.Expr

namespace Assignment

def type (a : Assignment) : ValueType := (checkExpr a.scopes a.value).1.type

/-- An assignment of a value whose type is known to a variable whose type is not. -/
def IsToUndetermined (a : Assignment) : Prop :=
  a.scopes.lookup a.name.name = some (.variable .unknown) ∧ a.type ≠ .unknown

instance (a : Assignment) : Decidable a.IsToUndetermined := instDecidableAnd

/-- What such an assignment is blamed for. -/
def finding (a : Assignment) : Finding :=
  ⟨a.value.span, .assignType a.type a.name.name .unknown⟩

def followOns (a : Assignment) : List Finding := if a.IsToUndetermined then [a.finding] else []

end Assignment

theorem followOns_checkAssign (h : scopes.Declared) (name : Surface.Ident) (value : Surface.Expr) :
    followOns (checkAssign scopes name value).2 = Assignment.followOns ⟨scopes, name, value⟩ := by
  have hvalue := followOns_checkExpr h value
  have hnone : scopes.lookup name.name ≠ some (.variable .unknown) →
      Assignment.followOns ⟨scopes, name, value⟩ = [] := fun hl ↦ if_neg fun hu ↦ hl hu.1
  unfold checkAssign
  dsimp only
  rw [followOns_append, hvalue, List.nil_append]
  split
  · rename_i hl
    rw [hnone (by simp [hl]), followOns_one rfl]
  · rename_i hl
    rw [hnone (by simp [hl]), followOns_one rfl]
  · rename_i hl
    rw [hnone (by simp [hl]), followOns_one rfl]
  · rename_i wanted hl
    by_cases hw : wanted = .unknown
    · subst hw
      by_cases ht : (checkExpr scopes value).1.type = .unknown
      · have hn : ¬Assignment.IsToUndetermined ⟨scopes, name, value⟩ := fun hu ↦ hu.2 ht
        rw [Assignment.followOns, if_neg hn, ht]
        rfl
      · have hu : Assignment.IsToUndetermined ⟨scopes, name, value⟩ := ⟨hl, ht⟩
        rw [Assignment.followOns, if_pos hu]
        simp [clashes, ht, blame, followOns, Finding.followsOn, Problem.compared,
          Assignment.finding, Assignment.type]
    · rw [hnone (by simp [hl, hw])]
      exact followOns_blame fun hc ↦ by
        simpa [Problem.compared, Ne.symm hw] using (clashes_known hc).symm

mutual

def assignments (scopes : Scopes) : Surface.Stmt → List Assignment
  | .assign name value _ => [⟨scopes, name, value⟩]
  | .if_ _ then_ none _ => assignments scopes.enter then_
  | .if_ _ then_ (some else_) _ => assignments scopes.enter then_ ++ assignments scopes.enter else_
  | .while_ _ body _ => assignments scopes.enter body
  | .block stmts _ => assignmentsAll scopes.enter stmts
  | .decl .. | .call .. | .empty _ => []

def assignmentsAll (scopes : Scopes) : List Surface.Stmt → List Assignment
  | [] => []
  | s :: ss => assignments scopes s ++ assignmentsAll (checkStmt scopes s).2.1 ss

end

theorem Scopes.Declared.enter (h : scopes.Declared) : scopes.enter.Declared where
  params scope hs := by
    rcases List.mem_cons.1 hs with rfl | hs
    · simp
    · exact h.params scope hs

theorem Scopes.Declared.declare (h : scopes.Declared) (name : Surface.Ident) {binding : Binding}
    (hb : ∀ params result, binding = .function params result → ValueType.unknown ∉ params) :
    (scopes.declare name binding).1.Declared where
  params scope hs x hx params result hp := by
    unfold Scopes.declare at hs
    split at hs
    · obtain rfl := List.mem_singleton.1 hs
      obtain rfl := List.mem_singleton.1 hx
      exact hb params result hp
    · split at hs
      · exact h.params scope hs x hx params result hp
      · rename_i inner outer _
        rcases List.mem_cons.1 hs with rfl | hs
        · rcases List.mem_cons.1 hx with rfl | hx
          · exact hb params result hp
          · exact h.params inner List.mem_cons_self x hx params result hp
        · exact h.params scope (List.mem_cons_of_mem _ hs) x hx params result hp

theorem Scopes.Declared.checkStmt (h : scopes.Declared) (s : Surface.Stmt) :
    (checkStmt scopes s).2.1.Declared := by
  cases s with
  | decl isConst name value span => cases isConst <;> exact h.declare name nofun
  | if_ cond then_ else_ span => cases else_ <;> exact h
  | _ => exact h

theorem Scopes.Declared.checkStmts (h : scopes.Declared) (ss : List Surface.Stmt) :
    (checkStmts scopes ss).2.1.Declared := by
  induction ss generalizing scopes with
  | nil => exact h
  | cons s ss ih => exact ih (h.checkStmt s)

mutual

/-- Within a statement undetermined types are compared in assignments only. -/
theorem followOns_checkStmt : ∀ (s : Surface.Stmt) {scopes : Scopes}, scopes.Declared →
    followOns (checkStmt scopes s).2.2 = (assignments scopes s).flatMap Assignment.followOns
  | .assign name value _, scopes, h => by
    simp [checkStmt, assignments, followOns_checkAssign h]
  | .decl true name value _, scopes, h => by
    simp [checkStmt, assignments, followOns_checkExpr h value, followOns_declare]
  | .decl false name value _, scopes, h => by
    simp [checkStmt, assignments, followOns_checkExpr h value, followOns_declare]
  | .if_ cond then_ none _, scopes, h => by
    have hguard : followOns (blame (clashes (checkExpr scopes cond).1.type .bool) cond.span
        (.ifGuard (checkExpr scopes cond).1.type)) = [] := followOns_guard rfl
    simp [checkStmt, assignments, followOns_checkExpr h cond, hguard,
      followOns_checkStmt then_ h.enter]
  | .if_ cond then_ (some else_) _, scopes, h => by
    have hguard : followOns (blame (clashes (checkExpr scopes cond).1.type .bool) cond.span
        (.ifGuard (checkExpr scopes cond).1.type)) = [] := followOns_guard rfl
    simp [checkStmt, assignments, followOns_checkExpr h cond, hguard,
      followOns_checkStmt then_ h.enter, followOns_checkStmt else_ h.enter]
  | .while_ cond body _, scopes, h => by
    have hguard : followOns (blame (clashes (checkExpr scopes cond).1.type .bool) cond.span
        (.whileGuard (checkExpr scopes cond).1.type)) = [] := followOns_guard rfl
    simp [checkStmt, assignments, followOns_checkExpr h cond, hguard,
      followOns_checkStmt body h.enter]
  | .block stmts _, scopes, h => by
    simp [checkStmt, assignments, followOns_checkStmts stmts h.enter]
  | .call callee args _, scopes, h => by
    simp [checkStmt, assignments, followOns_checkCallStmt h]
  | .empty _, scopes, h => rfl

theorem followOns_checkStmts : ∀ (ss : List Surface.Stmt) {scopes : Scopes}, scopes.Declared →
    followOns (checkStmts scopes ss).2.2 =
      (assignmentsAll scopes ss).flatMap Assignment.followOns
  | [], scopes, h => rfl
  | s :: ss, scopes, h => by
    simp [checkStmts, assignmentsAll, followOns_checkStmt s h,
      followOns_checkStmts ss (h.checkStmt s)]

end

theorem unknown_not_mem_params (params : List Surface.Param) :
    ValueType.unknown ∉ params.map fun p ↦ valueType p.type.name := by
  simp only [List.mem_map, not_exists, not_and]
  exact fun p _ ↦ ne_unknown (valueType_scalar p.type.name)

theorem Scopes.Declared.declareParams (h : scopes.Declared) (params : List Surface.Param) :
    (declareParams scopes params).1.Declared := by
  induction params generalizing scopes with
  | nil => exact h
  | cons p ps ih => exact ih (h.declare p.name nofun)

theorem followOns_declareParams (params : List Surface.Param) :
    followOns (declareParams scopes params).2 = [] := by
  induction params generalizing scopes with
  | nil => rfl
  | cons p ps ih => simp [declareParams, followOns_declare, ih]

theorem followOns_checkResult (h : scopes.Declared) (name : Surface.Ident)
    (result : Option Surface.Result) : followOns (checkResult scopes name result).2 = [] := by
  cases result with
  | none => rfl
  | some result =>
    have hreturn : ∀ got : ValueType, followOns (blame (clashes got (valueType result.type.name))
        name.span (.returnMismatch name.name got (valueType result.type.name))) = [] :=
      fun got ↦ followOns_blame fun hc ↦ by
        have hdeclared := ne_unknown (valueType_scalar result.type.name)
        simpa [Problem.compared, hdeclared.symm] using (clashes_known hc).symm
    simp [checkResult, followOns_checkExpr h result.value, hreturn]

def declAssignments (scopes : Scopes) : Surface.Decl → List Assignment
  | .var .. => []
  | .fun_ _ params body _ _ => assignmentsAll (declareParams scopes.enter params).1 body

def mainAssignments (scopes : Scopes) : Option Surface.Decl → List Assignment
  | none | some (.var ..) => []
  | some (.fun_ _ _ body _ _) => assignmentsAll scopes.enter body

theorem followOns_checkDecl (h : scopes.Declared) (d : Surface.Decl) :
    followOns (checkDecl scopes d).2 = (declAssignments scopes d).flatMap Assignment.followOns := by
  cases d with
  | var isConst name value span => cases isConst <;> exact followOns_initializer value
  | fun_ name params body result span =>
    have hparams := h.enter.declareParams params
    simp [checkDecl, declAssignments, followOns_declareParams, followOns_checkStmts body hparams,
      followOns_checkResult (hparams.checkStmts body)]

theorem followOns_checkDecls (h : scopes.Declared) (ds : List Surface.Decl) :
    followOns (checkDecls scopes ds).2 =
      (ds.flatMap (declAssignments scopes)).flatMap Assignment.followOns := by
  induction ds with
  | nil => rfl
  | cons d ds ih => simp [checkDecls, followOns_checkDecl h, ih]

theorem followOns_checkMain (h : scopes.Declared) (main : Option Surface.Decl) :
    followOns (checkMain scopes main).2 =
      (mainAssignments scopes main).flatMap Assignment.followOns := by
  cases main with
  | none => rfl
  | some d =>
    cases d with
    | var isConst name value span => exact followOns_one rfl
    | fun_ name params body result span =>
      have hsignature : ∀ condition, followOns (blame condition name.span .mainSignature) = [] :=
        fun _ ↦ followOns_blame fun _ ↦ by simp [Problem.compared]
      simp [checkMain, mainAssignments, hsignature, followOns_checkStmts body h.enter]

theorem followOns_declareAll (mainSeen : Bool) (ds : List Surface.Decl) :
    followOns (declareAll scopes mainSeen ds).2 = [] := by
  induction ds generalizing scopes mainSeen with
  | nil => rfl
  | cons d ds ih =>
    have hmain : followOns (blame mainSeen d.ident.span (.redefinition d.ident.name)) = [] :=
      followOns_blame fun _ ↦ by simp [Problem.compared]
    rw [declareAll]
    split
    · simp [hmain, ih]
    · split
      · change followOns ([_] ++ _) = []
        rw [followOns_append, followOns_one rfl, ih]
        rfl
      · simp [followOns_declare, ih]

theorem declBinding_params (d : Surface.Decl) {params : List ValueType}
    {result : Option ValueType} (h : declBinding d = .function params result) :
    ValueType.unknown ∉ params := by
  cases d with
  | var isConst name value span => cases isConst <;> cases h
  | fun_ name given body value span =>
    cases h
    exact unknown_not_mem_params given

theorem Scopes.Declared.declareAll (h : scopes.Declared) (mainSeen : Bool)
    (ds : List Surface.Decl) : (declareAll scopes mainSeen ds).1.Declared := by
  induction ds generalizing scopes mainSeen with
  | nil => exact h
  | cons d ds ih =>
    rw [Typing.declareAll]
    split
    · exact ih h true
    · split
      · exact ih h mainSeen
      · exact ih (h.declare d.ident fun params result ↦ declBinding_params d) mainSeen

/-- All assignments of a program, each with the scopes that it is checked in. -/
def programAssignments (program : Surface.Program) : List Assignment :=
  let scopes := (declareAll [[]] false program).1
  let (main, others) := splitMain program
  others.flatMap (declAssignments scopes) ++ mainAssignments scopes main

theorem followOns_checkProgram (program : Surface.Program) :
    followOns (checkProgram program).2 =
      (programAssignments program).flatMap Assignment.followOns := by
  have hempty : Scopes.Declared [[]] := ⟨by simp⟩
  have h := hempty.declareAll false program
  simp [checkProgram, programAssignments, followOns_declareAll, followOns_checkDecls h,
    followOns_checkMain h]

/-- Of all problems that compare types, only those of assignments ever compare an undetermined one:
exactly the assignments of a value whose type is known to a variable whose type is not are blamed
for it. -/
theorem undetermined_is_compared_iff (program : Surface.Program) (x : Finding) :
    (x ∈ (checkProgram program).2 ∧ (∃ code ∈ Code.comparisons, x.problem.code? = some code) ∧
      .unknown ∈ x.problem.compared) ↔
    ∃ a ∈ programAssignments program, a.scopes.lookup a.name.name = some (.variable .unknown) ∧
      a.type ≠ .unknown ∧ x = ⟨a.value.span, .assignType a.type a.name.name .unknown⟩ := by
  have hfilter : x ∈ followOns (checkProgram program).2 ↔
      x ∈ (checkProgram program).2 ∧ ValueType.unknown ∈ x.problem.compared := by
    rw [followOns, List.mem_filter, Finding.followsOn, List.contains_iff_mem]
  have hcode : ValueType.unknown ∈ x.problem.compared →
      ∃ code ∈ Code.comparisons, x.problem.code? = some code :=
    fun hu ↦ (compared_ne_nil_iff x.problem).1 (List.ne_nil_of_mem hu)
  rw [and_iff_right_of_imp hcode, ← hfilter, followOns_checkProgram, List.mem_flatMap]
  refine exists_congr fun a ↦ and_congr_right fun _ ↦ ?_
  rw [Assignment.followOns, ← and_assoc]
  split
  · rename_i hu
    simp only [List.mem_singleton]
    exact (and_iff_right hu).symm
  · rename_i hu
    simp only [List.not_mem_nil, false_iff]
    exact fun hx ↦ hu hx.1

def hopeless : File := ⟨ascii "hopeless.p0", ascii "fun main()\x7blet x=y;x=1;\x7d"⟩

theorem hopeless_is_blamed_twice : (Surface.parseFile hopeless).2 = [] ∧
    (checkProgram (Surface.parseFile hopeless).1).2.map Finding.problem =
      [.unknownName (ascii "y"), .assignType .int (ascii "x") .unknown] ∧
    ∃ x ∈ (checkProgram (Surface.parseFile hopeless).1).2,
      x.problem.code? = some .unableToAssignIncompatibleTypes ∧
      ValueType.unknown ∈ x.problem.compared := by
  decide +kernel

end PZero.Typing
