import PZero.Proofs.Surface.Parts
import PZero.Proofs.Typing.Acceptance

namespace PZero.Typing

open Surface (parseFile Reader IsName)

/-- Findings of the classes of type errors. The one other problem is an operator that the language
does not have. -/
structure Coded (findings : List Finding) : Prop where
  code : ∀ x ∈ findings, x.problem.code?.isSome = true

theorem coded_nil : Coded [] := ⟨List.forall_mem_nil _⟩

theorem Coded.append {findings findings' : List Finding} (h : Coded findings)
    (h' : Coded findings') : Coded (findings ++ findings') :=
  ⟨List.forall_mem_append.2 ⟨h.code, h'.code⟩⟩

theorem coded_one (place : Span) {problem : Problem} (h : problem.code?.isSome = true) :
    Coded [⟨place, problem⟩] := ⟨List.forall_mem_singleton.2 h⟩

theorem coded_blame (condition : Bool) (place : Span) {problem : Problem}
    (h : problem.code?.isSome = true) : Coded (blame condition place problem) := by
  cases condition with
  | false => exact coded_nil
  | true => exact coded_one place h

theorem coded_intLiteral (text : Bytes) (negative : Bool) (place : Span) :
    Coded (intLiteral text negative place).2 := by
  unfold intLiteral
  split
  · split
    · exact coded_nil
    · exact coded_one place rfl
  · exact coded_one place rfl

theorem coded_floatLiteral (text : Bytes) (negative : Bool) (place : Span) :
    Coded (floatLiteral text negative place).2 := by
  unfold floatLiteral
  split
  · dsimp only
    split
    · exact coded_one place rfl
    · exact coded_nil
  · exact coded_nil

theorem coded_initializer (e : Surface.Expr) : Coded (initializer e).2 := by
  unfold initializer
  split
  · exact coded_nil
  · exact coded_intLiteral ..
  · exact coded_floatLiteral ..
  · exact coded_intLiteral ..
  · exact coded_floatLiteral ..
  · exact coded_one _ rfl
  · exact coded_one _ rfl

theorem coded_binaryProblems (op : BinaryOp) (left right : ValueType) (p q place : Span) :
    Coded (binaryProblems op left right p q place) := by
  have ho : ∀ accepts got place, Coded (operandProblem op accepts got place) :=
    fun _ _ _ ↦ coded_blame _ _ rfl
  cases op with
  | and | or => exact (ho _ _ _).append (ho _ _ _)
  | equal | notEqual => exact coded_blame _ _ rfl
  | _ => exact ((ho _ _ _).append (ho _ _ _)).append (coded_blame _ _ rfl)

theorem coded_argumentTypeProblems (callee : Bytes) (first : Nat) (params : List ValueType)
    (args : List (ValueType × Span)) :
    Coded (argumentTypeProblems callee first params args) := by
  induction params generalizing first args with
  | nil => exact coded_nil
  | cons wanted params ih =>
    cases args with
    | nil => exact coded_nil
    | cons arg args => exact (coded_blame _ _ rfl).append (ih _ _)

theorem coded_argumentProblems (callee : Surface.Ident) (params : List ValueType)
    (args : List (ValueType × Span)) : Coded (argumentProblems callee params args) := by
  unfold argumentProblems
  split
  · exact coded_argumentTypeProblems ..
  · exact coded_one _ rfl

mutual

theorem coded_checkExpr (scopes : Scopes) : ∀ e : Surface.Expr, e.Shaped →
    Coded (checkExpr scopes e).2
  | .conditional cond then_ else_ _, h => by
    rw [Surface.Expr.Shaped] at h
    rw [checkExpr]
    exact ((((coded_checkExpr scopes cond h.1).append (coded_checkExpr scopes then_ h.2.1)).append
      (coded_checkExpr scopes else_ h.2.2)).append (coded_blame _ _ rfl)).append
      (coded_blame _ _ rfl)
  | .binary op left right place, h => by
    rw [Surface.Expr.Shaped] at h
    rw [checkExpr]
    exact ((coded_checkExpr scopes left h.1).append (coded_checkExpr scopes right h.2)).append
      (coded_binaryProblems ..)
  | .binaryUnknown .., h => by
    rw [Surface.Expr.Shaped] at h
    exact h.elim
  | .unary op operand place, h => by
    rw [Surface.Expr.Shaped] at h
    rcases negated_or_plain op operand with ⟨text, inner, rfl, rfl⟩ | hplain
    · exact coded_intLiteral ..
    · rw [checkExpr_unary hplain]
      exact (coded_checkExpr scopes operand h).append (coded_blame _ _ rfl)
  | .call callee args _, h => by
    rw [Surface.Expr.Shaped] at h
    have hargs := coded_checkExprs scopes args h.2
    rw [checkExpr]
    split
    · exact coded_one _ rfl
    · exact coded_one _ rfl
    · exact coded_one _ rfl
    · dsimp only
      split
      · exact hargs.append (coded_argumentProblems ..)
      · exact (hargs.append (coded_argumentProblems ..)).append (coded_one _ rfl)
  | .ident name place, _ => by
    rw [checkExpr]
    split
    · exact coded_one _ rfl
    · exact coded_one _ rfl
    · exact coded_nil
    · exact coded_nil
  | .paren inner _, h => by
    rw [Surface.Expr.Shaped] at h
    rw [checkExpr]
    exact coded_checkExpr scopes inner h
  | .int .., _ => coded_intLiteral ..
  | .float .., _ => coded_floatLiteral ..
  | .bool .., _ => coded_nil
  | .string .., _ => coded_one _ rfl

theorem coded_checkExprs (scopes : Scopes) : ∀ es : List Surface.Expr,
    Surface.Expr.AllShaped es → Coded (checkExprs scopes es).2
  | [], _ => coded_nil
  | e :: es, h => by
    rw [Surface.Expr.AllShaped] at h
    rw [checkExprs]
    exact (coded_checkExpr scopes e h.1).append (coded_checkExprs scopes es h.2)

end

theorem coded_checkArg (scopes : Scopes) {e : Surface.Expr} (h : e.Shaped) :
    Coded (checkArg scopes e).2 := by
  cases e with
  | string text place =>
    rw [checkArg]
    split
    · exact coded_nil
    · exact coded_one _ rfl
  | _ => exact coded_checkExpr scopes _ h

theorem coded_checkArgs (scopes : Scopes) {es : List Surface.Expr}
    (h : Surface.Expr.AllShaped es) : Coded (checkArgs scopes es).2 := by
  induction es with
  | nil => exact coded_nil
  | cons e es ih =>
    rw [Surface.Expr.AllShaped] at h
    rw [checkArgs]
    exact (coded_checkArg scopes h.1).append (ih h.2)

theorem coded_checkCallStmt (scopes : Scopes) (callee : Surface.Ident) {args : List Surface.Expr}
    (h : Surface.Expr.AllShaped args) : Coded (checkCallStmt scopes callee args).2 := by
  have hargs := coded_checkArgs scopes h
  unfold checkCallStmt
  split
  · split
    · exact hargs
    · exact coded_one _ rfl
  · exact coded_one _ rfl
  · exact coded_one _ rfl
  · exact (hargs.append (coded_argumentProblems ..)).append (coded_blame _ _ rfl)

theorem coded_checkAssign (scopes : Scopes) (name : Surface.Ident) {value : Surface.Expr}
    (h : value.Shaped) : Coded (checkAssign scopes name value).2 := by
  refine (coded_checkExpr scopes value h).append ?_
  split
  · exact coded_one _ rfl
  · exact coded_one _ rfl
  · exact coded_one _ rfl
  · exact coded_blame _ _ rfl

theorem coded_declare (scopes : Scopes) (name : Surface.Ident) (binding : Binding) :
    Coded (scopes.declare name binding).2 := by
  unfold Scopes.declare
  split
  · exact coded_nil
  · split
    · exact coded_one _ rfl
    · exact coded_nil

mutual

theorem coded_checkStmt : ∀ (scopes : Scopes) (s : Surface.Stmt), s.Shaped →
    Coded (checkStmt scopes s).2.2
  | scopes, .assign name value _, h => by
    rw [Surface.Stmt.Shaped] at h
    exact coded_checkAssign scopes name h.2
  | scopes, .decl true name value _, h => by
    rw [Surface.Stmt.Shaped] at h
    exact (coded_checkExpr scopes value h.2).append (coded_declare ..)
  | scopes, .decl false name value _, h => by
    rw [Surface.Stmt.Shaped] at h
    exact (coded_checkExpr scopes value h.2).append (coded_declare ..)
  | scopes, .if_ cond then_ none _, h => by
    rw [Surface.Stmt.Shaped] at h
    rw [checkStmt]
    exact ((coded_checkExpr scopes cond h.1).append (coded_blame _ _ rfl)).append
      (coded_checkStmt scopes.enter then_ h.2)
  | scopes, .if_ cond then_ (some else_) _, h => by
    rw [Surface.Stmt.Shaped] at h
    rw [checkStmt]
    exact (((coded_checkExpr scopes cond h.1).append (coded_blame _ _ rfl)).append
      (coded_checkStmt scopes.enter then_ h.2.1)).append (coded_checkStmt scopes.enter else_ h.2.2)
  | scopes, .while_ cond body _, h => by
    rw [Surface.Stmt.Shaped] at h
    rw [checkStmt]
    exact ((coded_checkExpr scopes cond h.1).append (coded_blame _ _ rfl)).append
      (coded_checkStmt scopes.enter body h.2)
  | scopes, .block stmts _, h => by
    rw [Surface.Stmt.Shaped] at h
    rw [checkStmt]
    exact coded_checkStmts scopes.enter stmts h
  | scopes, .call callee args _, h => by
    rw [Surface.Stmt.Shaped] at h
    exact coded_checkCallStmt scopes callee h.2
  | _, .empty _, _ => coded_nil

theorem coded_checkStmts : ∀ (scopes : Scopes) (ss : List Surface.Stmt),
    Surface.Stmt.AllShaped ss → Coded (checkStmts scopes ss).2.2
  | _, [], _ => coded_nil
  | scopes, s :: ss, h => by
    rw [Surface.Stmt.AllShaped] at h
    rw [checkStmts]
    exact (coded_checkStmt scopes s h.1).append (coded_checkStmts _ ss h.2)

end

theorem coded_declareParams (scopes : Scopes) (params : List Surface.Param) :
    Coded (declareParams scopes params).2 := by
  induction params generalizing scopes with
  | nil => exact coded_nil
  | cons p ps ih => exact (coded_declare ..).append (ih _)

theorem coded_checkResult (scopes : Scopes) (name : Surface.Ident)
    {result : Option Surface.Result} (h : ∀ r ∈ result, r.value.Shaped) :
    Coded (checkResult scopes name result).2 := by
  cases result with
  | none => exact coded_nil
  | some result => exact (coded_checkExpr scopes _ (h _ rfl)).append (coded_blame _ _ rfl)

theorem coded_checkDecl (scopes : Scopes) {d : Surface.Decl} (h : d.Shaped) :
    Coded (checkDecl scopes d).2 := by
  cases d with
  | var isConst name value place => cases isConst <;> exact coded_initializer value
  | fun_ name params body result place =>
    obtain ⟨-, -, hb, hr⟩ := h
    exact ((coded_declareParams ..).append (coded_checkStmts _ body hb)).append
      (coded_checkResult _ name hr)

theorem coded_checkDecls (scopes : Scopes) {ds : List Surface.Decl} (h : ∀ d ∈ ds, d.Shaped) :
    Coded (checkDecls scopes ds).2 := by
  induction ds with
  | nil => exact coded_nil
  | cons d ds ih =>
    obtain ⟨hd, hds⟩ := List.forall_mem_cons.1 h
    exact (coded_checkDecl scopes hd).append (ih hds)

theorem coded_declareAll (scopes : Scopes) (mainSeen : Bool) (ds : List Surface.Decl) :
    Coded (declareAll scopes mainSeen ds).2 := by
  induction ds generalizing scopes mainSeen with
  | nil => exact coded_nil
  | cons d ds ih =>
    rw [declareAll]
    split
    · exact (coded_blame _ _ rfl).append (ih _ _)
    · split
      · exact (coded_one d.ident.span rfl).append (ih _ _)
      · exact (coded_declare ..).append (ih _ _)

theorem coded_checkMain (scopes : Scopes) {main : Option Surface.Decl}
    (h : ∀ d ∈ main, d.Shaped) : Coded (checkMain scopes main).2 := by
  cases main with
  | none => exact coded_nil
  | some d =>
    cases d with
    | var isConst name value place => exact coded_one _ rfl
    | fun_ name params body result place =>
      obtain ⟨-, -, hb, -⟩ := h _ rfl
      exact (coded_blame _ _ rfl).append (coded_checkStmts _ body hb)

theorem coded_checkProgram {program : Surface.Program} (h : program.Shaped) :
    Coded (checkProgram program).2 := by
  have hmain : ∀ d ∈ (splitMain program).1, d.Shaped :=
    fun d hd ↦ h d (List.mem_of_find?_eq_some hd)
  have hothers : ∀ d ∈ (splitMain program).2, d.Shaped :=
    fun d hd ↦ h d (List.mem_of_mem_eraseP hd)
  exact ((coded_declareAll ..).append (coded_checkDecls _ hothers)).append
    (coded_checkMain _ hmain)

theorem Coded.undefinedOperator? {findings : List Finding} (h : Coded findings) :
    undefinedOperator? findings = none := by
  refine List.findSome?_eq_none_iff.2 fun x hx ↦ ?_
  have hc := h.code x hx
  split
  · rename_i hp
    rw [hp] at hc
    cases hc
  · rfl

/-- How the front end comes to an answer. -/
structure Answers (f : File) : Prop where
  tokens : Surface.EndsOnce (Token.scan f.input)
  /-- Every part, from every place of the file, is read at a depth that is linear in the tokens
  ahead, and a larger bound gives the same. The reader goes onward and stays in the file. -/
  parts : ∀ {α : Type} (part : Surface.Part α) (r : Reader), r.In f → part.Starts r →
    ∀ bound, Surface.Part.depth r ≤ bound →
      part.read bound r = part.read (Surface.Part.depth r) r ∧
      part.Leaves r (part.read bound r).2 ∧ (part.read bound r).2.In f
  /-- In a declaration that has failed the loops over statements end. -/
  loops : ∀ (r : Reader) (bound : Nat), r.failed = true →
    Surface.readBlock (bound + 1) r = ([], r) ∧ Surface.readBody (bound + 1) r = ([], r)
  /-- The file is read to the end whatever the bound, and whatever stands for the token before the
  first one. -/
  whole : ∀ first rest, Token.scan f.input = first :: rest → ∀ previous bound,
    8 * (Token.scan f.input).length ≤ bound →
      (Surface.readProgram bound ⟨previous, first, rest, false, []⟩).1 = (parseFile f).1 ∧
      (Surface.readProgram bound ⟨previous, first, rest, false, []⟩).2.errors = (parseFile f).2
  bounded : ∀ e ∈ (parseFile f).2, e.problem ≠ .tooDeep
  operators : (parseFile f).2 = [] → ∀ symbol, check (parseFile f).1 ≠ .undefinedOperator symbol
  accepted : ∀ typed, checkFile f = .ok typed →
    (parseFile f).2 = [] ∧ check (parseFile f).1 = .accepted typed ∧ typed.WellTyped
  rejected : ∀ diagnostics, checkFile f = .error diagnostics → diagnostics ≠ []

variable {f : File}

theorem check_ne_undefinedOperator (h : (parseFile f).2 = []) (symbol : Bytes) :
    check (parseFile f).1 ≠ .undefinedOperator symbol := by
  have hs : (parseFile f).1.Shaped := Surface.parseFile_shaped (f := f) (by rw [← h])
  have hc := (coded_checkProgram hs).undefinedOperator?
  rcases hp : checkProgram (parseFile f).1 with ⟨typed, findings⟩
  rw [hp] at hc
  simp only [check, hp, hc]
  split <;> intro he <;> cases he

theorem checkFile_accepted {typed : Typed.Program} (h : checkFile f = .ok typed) :
    (parseFile f).2 = [] ∧ check (parseFile f).1 = .accepted typed ∧ typed.WellTyped := by
  obtain ⟨program, hp, hs, hw⟩ := checkFile_eq_ok h
  rw [hp]
  exact ⟨rfl, (check_eq_accepted_iff hs).2 hw, hw.wellTyped hs⟩

theorem checkFile_rejected {diagnostics : List Diagnostic} (h : checkFile f = .error diagnostics) :
    diagnostics ≠ [] := by
  rcases hp : parseFile f with ⟨program, errors⟩
  cases errors with
  | nil =>
    simp only [checkFile, hp] at h
    split at h
    · cases h
    · cases h
      simpa using ‹_›
  | cons e errors =>
    simp only [checkFile, hp] at h
    cases h
    exact List.cons_ne_nil _ _

/-- The front end is total: reading comes to an end at every text, each part of it takes a token or
tells an error that ends what it is in, and the answer is a typed program or a reason why not. -/
theorem front_end_answers (f : File) : Answers f where
  tokens := Surface.scan_endsOnce f.input
  parts := fun part r hr hs bound hb ↦ by
    have hl := part.leaves hr.closed hs hb
    exact ⟨part.read_eq hr.closed hs hb, hl, hl.onward.in hr⟩
  loops := fun r bound hf ↦ ⟨Surface.readBlock_failed hf bound, Surface.readBody_failed hf bound⟩
  whole := fun first rest hs previous bound hb ↦ Surface.readProgram_file hs previous hb
  bounded := Surface.parseFile_bounded f
  operators := check_ne_undefinedOperator
  accepted := fun typed ↦ checkFile_accepted
  rejected := fun diagnostics ↦ checkFile_rejected

end PZero.Typing
