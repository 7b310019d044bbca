import PZero.Proofs.Lowering.Free
import PZero.Proofs.Lowering.Program

namespace PZero.Lowering

open IR Lower
open Typed (freeName)

/-- The names that a site knows: those of the globals and those of the scopes. -/
structure Site.Sees (s : Site) (globals : List Bytes) (function : Bytes)
    (scopes : List (List Bytes)) : Prop where
  globals : s.module.addresses.map Prod.fst = globals
  function : s.function.name = function
  scopes : s.function.scopes.map (List.map Prod.fst) = scopes

/-- A piece of lowering that needs some names of the globals and leads from scopes to scopes. -/
def Lower.Needs {α : Type} (globals : List Bytes) (function : Bytes) (code : Lower α)
    (scopes scopes' : List (List Bytes)) (names : List Bytes) : Prop :=
  ∀ s : Site, s.Sees globals function scopes →
    match names.find? (· ∉ globals) with
    | none => ∃ a s', code s = .ok (a, s') ∧ s'.Sees globals function scopes'
    | some x => code s = .error (.draft (.unbound x function))

namespace Lower.Needs

variable {α β : Type} {globals : List Bytes} {function : Bytes} {scopes scopes₁ scopes₂ :
  List (List Bytes)} {xs ys : List Bytes} {code : Lower α} {f : α → Lower β}

theorem bind (h : Needs globals function code scopes scopes₁ xs)
    (hf : ∀ a, Needs globals function (f a) scopes₁ scopes₂ ys) :
    Needs globals function (code >>= f) scopes scopes₂ (xs ++ ys) := by
  intro s hs
  have hc := h s hs
  rw [List.find?_append]
  cases hx : xs.find? (· ∉ globals) with
  | some x =>
    simp only [hx] at hc
    change Except.bind (code s) _ = _
    rw [hc]
    rfl
  | none =>
    simp only [hx] at hc
    obtain ⟨a, s₁, ha, hs₁⟩ := hc
    have hb : (code >>= f) s = f a s₁ := by
      change Except.bind (code s) _ = _
      rw [ha]
      rfl
    rw [Option.none_or, hb]
    exact hf a s₁ hs₁

theorem nil_bind (h : Needs globals function code scopes scopes₁ [])
    (hf : ∀ a, Needs globals function (f a) scopes₁ scopes₂ ys) :
    Needs globals function (code >>= f) scopes scopes₂ ys :=
  h.bind hf

theorem bind_nil (h : Needs globals function code scopes scopes₁ xs)
    (hf : ∀ a, Needs globals function (f a) scopes₁ scopes₂ []) :
    Needs globals function (code >>= f) scopes scopes₂ xs :=
  List.append_nil xs ▸ h.bind hf

theorem of_ok (h : ∀ s : Site, s.Sees globals function scopes →
      ∃ a s', code s = .ok (a, s') ∧ s'.Sees globals function scopes₁) :
    Needs globals function code scopes scopes₁ [] :=
  fun s hs ↦ h s hs

theorem pure (a : α) : Needs globals function (Pure.pure a) scopes scopes [] :=
  of_ok fun s hs ↦ ⟨a, s, rfl, hs⟩

theorem emit (i : Instr) : Needs globals function (emit i) scopes scopes [] :=
  of_ok fun s hs ↦ ⟨(), s.emit i, rfl, hs.globals, hs.function, hs.scopes⟩

theorem define (type : Ty) (make : Register → Instr) :
    Needs globals function (define (Draft.define type make)) scopes scopes [] :=
  of_ok fun s hs ↦ ⟨_, s.define type make, rfl, hs.globals, hs.function, hs.scopes⟩

theorem newLabel (stem : String) : Needs globals function (newLabel stem) scopes scopes [] :=
  of_ok fun s hs ↦ ⟨_, s.reserve 1, rfl, hs.globals, hs.function, hs.scopes⟩

theorem startBlock (label : Bytes) :
    Needs globals function (startBlock label) scopes scopes [] :=
  of_ok fun s hs ↦ ⟨(), s.start label, rfl, hs.globals, hs.function, hs.scopes⟩

theorem currentLabel : Needs globals function currentLabel scopes scopes [] :=
  of_ok fun s hs ↦ ⟨_, s, rfl, hs⟩

theorem phi (first : Incoming) (rest : List Incoming) :
    Needs globals function (phi (first :: rest)) scopes scopes [] :=
  of_ok fun _ hs ↦ ⟨_, _, phi_ok.2 rfl, hs.globals, hs.function, hs.scopes⟩

theorem intern (text : Bytes) : Needs globals function (intern text) scopes scopes [] := by
  refine of_ok fun s hs ↦ ⟨_, s.intern text, rfl, ?_, hs.function, hs.scopes⟩
  obtain ⟨n, texts, hi, -⟩ := s.module.intern_eq text
  rw [Site.intern, hi]
  exact hs.globals

theorem lift {e : Except Cause α} {a : α} (h : e = .ok a) :
    Needs globals function (liftM e : Lower α) scopes scopes [] :=
  of_ok fun s hs ↦ ⟨a, s, lift_ok.2 ⟨a, h, rfl⟩, hs⟩

theorem openScope : Needs globals function openScope scopes ([] :: scopes) [] :=
  of_ok fun s hs ↦ ⟨(), s.enter, rfl, hs.globals, hs.function, congrArg ([] :: ·) hs.scopes⟩

theorem closeScope {scope : List Bytes} :
    Needs globals function closeScope (scope :: scopes) scopes [] := by
  refine of_ok fun s hs ↦ ⟨(), s.leave, ?_, hs.globals, hs.function, ?_⟩
  · refine closeScope_ok.2 ⟨fun hn ↦ ?_, rfl⟩
    have := hs.scopes
    rw [hn] at this
    cases this
  · change s.function.scopes.tail.map _ = _
    rw [List.map_tail, hs.scopes, List.tail_cons]

theorem bindName {scope : List Bytes} (name : Bytes) (x : Operand) :
    Needs globals function (bindName name x) (scope :: scopes) ((name :: scope) :: scopes) [] := by
  refine of_ok fun s hs ↦ ⟨(), s.bind name x, rfl, hs.globals, ?_, ?_⟩
  all_goals
    have hsc := hs.scopes
    cases he : s.function.scopes with
    | nil => simp [he] at hsc
    | cons first rest =>
      simp only [he, List.map_cons, List.cons.injEq] at hsc
      simp [Site.bind, Draft.bindName, he, hs.function, hsc]

theorem address (name : Bytes) :
    Needs globals function (address name) scopes scopes (freeName scopes.flatten name) := by
  intro s hs
  have hl : s.function.scopes.flatten.lookup name = none ↔ name ∉ scopes.flatten := by
    rw [Typing.lookup_eq_none, ← hs.scopes, List.map_flatten]
  have hg : s.module.address? name = none ↔ name ∉ globals := by
    rw [← hs.globals]
    exact Typing.lookup_eq_none
  unfold freeName Lower.address
  rw [Draft.operand, Typing.findSome?_lookup]
  by_cases hn : name ∈ scopes.flatten
  · obtain ⟨x, hx⟩ := Option.ne_none_iff_exists'.1 fun h ↦ hl.1 h hn
    simp only [hn, if_true, hx]
    exact ⟨x, s, rfl, hs⟩
  · simp only [hn, if_false, hl.2 hn]
    by_cases hm : name ∈ globals
    · obtain ⟨c, hc⟩ := Option.ne_none_iff_exists'.1 fun h ↦ hg.1 h hm
      simp only [List.find?_cons, hm, not_true_eq_false, decide_false, List.find?_nil, hc]
      exact ⟨.const c, s, rfl, hs⟩
    · simp only [List.find?_cons, hm, not_false_eq_true, decide_true, hg.2 hm, hs.function]

end Lower.Needs

theorem typeOf_ok {type : ValueType} (h : type ∈ ValueType.scalars) :
    ∃ ty, typeOf type = .ok ty := by
  cases type with
  | int => exact ⟨_, rfl⟩
  | float => exact ⟨_, rfl⟩
  | bool => exact ⟨_, rfl⟩
  | string | unknown => simp [ValueType.scalars] at h

theorem operandTypes_scalar {op : BinaryOp} {type : ValueType} (h : type ∈ op.operandTypes) :
    type ∈ ValueType.scalars := by
  cases op <;> simp [BinaryOp.operandTypes, ValueType.scalars] at h ⊢ <;> tauto

theorem wellTyped_scalar {Γ : Typing.Scope} : ∀ {e : Typed.Expr}, e.WellTyped Γ →
    e.type ∈ ValueType.scalars
  | .conditional cond then_ else_, ⟨_, ht, _⟩ => by
    rw [Typed.Expr.type]
    exact wellTyped_scalar ht
  | .binary op left right, ⟨_, _, _, ht⟩ => by
    rw [Typed.Expr.type]
    split
    · exact operandTypes_scalar ht
    · simp [ValueType.scalars]
  | .unary op operand, ⟨ho, _⟩ => by
    rw [Typed.Expr.type]
    exact wellTyped_scalar ho
  | .call type callee args, ⟨_, ht, _⟩ => ht
  | .ident type name, ⟨ht, _⟩ => ht
  | .literal value, h => by
    cases value with
    | string text => exact h.elim
    | bool | int | float => simp [Typed.Expr.type, Typed.Literal.type, ValueType.scalars]

variable {globals : List Bytes} {function : Bytes} {scopes : List (List Bytes)}

theorem lowerLiteral_needs (value : Typed.Literal) :
    Needs globals function (lowerLiteral value) scopes scopes [] := by
  cases value with
  | string text => exact (Needs.intern text).nil_bind fun c ↦ .define _ _
  | bool | int | float => exact .pure _

theorem lowerBinary_needs {op : BinaryOp} {type : ValueType} (h : type ∈ op.operandTypes)
    (x y : Operand) : Needs globals function (lowerBinary op type x y) scopes scopes [] := by
  cases op <;> cases type <;> simp [BinaryOp.operandTypes, ValueType.scalars] at h <;>
    simp only [lowerBinary, comparison?] <;> exact .define _ _

theorem lowerUnary_needs {op : UnaryOp} {type : ValueType} (h : type ∈ op.operandTypes)
    (x : Operand) : Needs globals function (lowerUnary op type x) scopes scopes [] := by
  cases op with
  | not =>
    simp only [lowerUnary]
    exact .define _ _
  | identity => exact .pure x
  | negate =>
    simp only [UnaryOp.operandTypes, List.mem_cons, List.not_mem_nil, or_false] at h
    rcases h with rfl | rfl <;> simp only [lowerUnary] <;> exact .define _ _

mutual

theorem lowerExpr_needs {Γ : Typing.Scope} : ∀ e : Typed.Expr, e.WellTyped Γ →
    Needs globals function (lowerExpr e) scopes scopes (e.free scopes.flatten)
  | .literal value, _ => by
    rw [lowerExpr, Typed.Expr.free]
    exact lowerLiteral_needs value
  | .unary op operand, ⟨ho, ht⟩ => by
    rw [lowerExpr, Typed.Expr.free]
    exact (lowerExpr_needs operand ho).bind_nil fun x ↦ lowerUnary_needs ht x
  | .binary op left right, ⟨hl, hr, _, ht⟩ => by
    rw [lowerExpr, Typed.Expr.free]
    refine (lowerExpr_needs left hl).bind fun x ↦ (lowerExpr_needs right hr).bind_nil fun y ↦ ?_
    exact lowerBinary_needs ht x y
  | .conditional cond then_ else_, ⟨hc, ht, he, _⟩ => by
    rw [lowerExpr, Typed.Expr.free]
    refine (lowerExpr_needs cond hc).bind fun c ↦ ?_
    refine (Needs.newLabel _).nil_bind fun thenLabel ↦ (Needs.newLabel _).nil_bind fun elseLabel ↦
      (Needs.newLabel _).nil_bind fun mergeLabel ↦ ?_
    refine (Needs.emit _).nil_bind fun _ ↦ (Needs.startBlock _).nil_bind fun _ ↦ ?_
    refine (lowerExpr_needs then_ ht).bind fun x ↦ Needs.currentLabel.nil_bind fun thenEnd ↦ ?_
    refine (Needs.emit _).nil_bind fun _ ↦ (Needs.startBlock _).nil_bind fun _ ↦ ?_
    refine (lowerExpr_needs else_ he).bind_nil fun y ↦ Needs.currentLabel.nil_bind fun elseEnd ↦ ?_
    refine (Needs.emit _).nil_bind fun _ ↦ (Needs.startBlock _).nil_bind fun _ ↦ ?_
    exact .phi _ _
  | .ident type name, ⟨ht, _⟩ => by
    rw [lowerExpr, Typed.Expr.free]
    obtain ⟨ty, hty⟩ := typeOf_ok ht
    exact (Needs.lift hty).nil_bind fun elem ↦ (Needs.address name).bind_nil fun x ↦ .define _ _
  | .call type callee args, ⟨ha, ht, _⟩ => by
    rw [lowerExpr, Typed.Expr.free]
    obtain ⟨ty, hty⟩ := typeOf_ok ht
    exact (Needs.lift hty).nil_bind fun result ↦ (lowerExprs_needs args ha).bind_nil fun xs ↦
      .define _ _

theorem lowerExprs_needs {Γ : Typing.Scope} : ∀ es : List Typed.Expr,
    Typed.Expr.AllWellTyped Γ es →
    Needs globals function (lowerExprs es) scopes scopes (Typed.Expr.freeAll scopes.flatten es)
  | [], _ => by
    rw [lowerExprs, Typed.Expr.freeAll]
    exact .pure _
  | e :: es, ⟨he, hes⟩ => by
    rw [lowerExprs, Typed.Expr.freeAll]
    exact (lowerExpr_needs e he).bind fun x ↦ (lowerExprs_needs es hes).bind_nil fun xs ↦ .pure _

end

theorem lowerPrint_needs {Γ : Typing.Scope} {e : Typed.Expr} (h : e.Printable Γ) :
    Needs globals function (lowerPrint e) scopes scopes (e.free scopes.flatten) := by
  have he : Needs globals function (lowerExpr e) scopes scopes (e.free scopes.flatten) := by
    rcases h with h | ⟨text, rfl⟩
    · exact lowerExpr_needs e h
    · rw [lowerExpr, Typed.Expr.free]
      exact lowerLiteral_needs _
  have ht : e.type ≠ .unknown := by
    rcases h with h | ⟨text, rfl⟩
    · have hs := wellTyped_scalar h
      intro hu
      rw [hu] at hs
      simp [ValueType.scalars] at hs
    · simp [Typed.Expr.type, Typed.Literal.type]
  refine he.bind_nil fun x ↦ ?_
  cases hty : e.type with
  | bool => exact (Needs.define _ _).nil_bind fun wide ↦ .emit _
  | int | float | string => exact .emit _
  | unknown => exact absurd hty ht

theorem lowerPrints_needs {Γ : Typing.Scope} {es : List Typed.Expr}
    (h : ∀ e ∈ es, e.Printable Γ) :
    Needs globals function (lowerPrints es) scopes scopes
      (Typed.Expr.freeAll scopes.flatten es) := by
  induction es with
  | nil =>
    rw [Typed.Expr.freeAll]
    exact .pure ()
  | cons e es ih =>
    obtain ⟨he, hes⟩ := List.forall_mem_cons.1 h
    rw [Typed.Expr.freeAll]
    exact (lowerPrint_needs he).bind fun _ ↦ ih hes

variable {scope : List Bytes} {outer : List (List Bytes)}

theorem lowerLocal_needs {Γ : Typing.Scope} {name : Bytes} {value : Typed.Expr}
    (h : value.WellTyped Γ) :
    Needs globals function (lowerLocal name value) (scope :: outer) ((name :: scope) :: outer)
      (value.free (scope ++ outer.flatten)) := by
  obtain ⟨ty, hty⟩ := typeOf_ok (wellTyped_scalar h)
  refine (lowerExpr_needs value h).bind_nil fun x ↦ (Needs.lift hty).nil_bind fun elem ↦ ?_
  exact (Needs.define _ _).nil_bind fun slot ↦ (Needs.emit _).nil_bind fun _ ↦ .bindName name slot

mutual

theorem lowerStmt_needs : ∀ (st : Typed.Stmt) {Γ : Typing.Scope} {scope : List Bytes}
    {outer : List (List Bytes)}, st.WellTyped Γ →
    Needs globals function (lowerStmt st) (scope :: outer) ((declared st ++ scope) :: outer)
      (st.free (scope ++ outer.flatten))
  | .const name value, Γ, scope, outer, h => by
    rw [lowerStmt, Typed.Stmt.free]
    exact lowerLocal_needs h
  | .let_ name value, Γ, scope, outer, h => by
    rw [lowerStmt, Typed.Stmt.free]
    exact lowerLocal_needs h
  | .assign name value, Γ, scope, outer, ⟨hv, _⟩ => by
    rw [lowerStmt, Typed.Stmt.free]
    exact (lowerExpr_needs value hv).bind fun x ↦ (Needs.address name).bind_nil fun a ↦ .emit _
  | .if_ cond then_ none, Γ, scope, outer, ⟨hc, _, ht⟩ => by
    rw [lowerStmt, Typed.Stmt.free]
    refine (lowerExpr_needs cond hc).bind fun c ↦ ?_
    refine (Needs.newLabel _).nil_bind fun thenLabel ↦ (Needs.newLabel _).nil_bind
      fun mergeLabel ↦ ?_
    refine (Needs.emit _).nil_bind fun _ ↦ (Needs.startBlock _).nil_bind fun _ ↦ ?_
    refine Needs.openScope.nil_bind fun _ ↦ (lowerStmt_needs then_ ht).bind_nil fun _ ↦ ?_
    refine Needs.closeScope.nil_bind fun _ ↦ (Needs.emit _).nil_bind fun _ ↦ ?_
    exact .startBlock mergeLabel
  | .if_ cond then_ (some else_), Γ, scope, outer, ⟨hc, _, ht, he⟩ => by
    rw [lowerStmt, Typed.Stmt.free]
    refine (lowerExpr_needs cond hc).bind fun c ↦ ?_
    refine (Needs.newLabel _).nil_bind fun thenLabel ↦ (Needs.newLabel _).nil_bind fun elseLabel ↦
      (Needs.newLabel _).nil_bind fun mergeLabel ↦ ?_
    refine (Needs.emit _).nil_bind fun _ ↦ (Needs.startBlock _).nil_bind fun _ ↦ ?_
    refine Needs.openScope.nil_bind fun _ ↦ (lowerStmt_needs then_ ht).bind fun _ ↦ ?_
    refine Needs.closeScope.nil_bind fun _ ↦ (Needs.emit _).nil_bind fun _ ↦ ?_
    refine (Needs.startBlock _).nil_bind fun _ ↦ Needs.openScope.nil_bind fun _ ↦ ?_
    refine (lowerStmt_needs else_ he).bind_nil fun _ ↦ Needs.closeScope.nil_bind fun _ ↦ ?_
    exact (Needs.emit _).nil_bind fun _ ↦ .startBlock mergeLabel
  | .while_ cond body, Γ, scope, outer, ⟨hc, _, hb⟩ => by
    rw [lowerStmt, Typed.Stmt.free]
    refine (Needs.newLabel _).nil_bind fun headLabel ↦ (Needs.newLabel _).nil_bind fun bodyLabel ↦
      (Needs.newLabel _).nil_bind fun mergeLabel ↦ ?_
    refine (Needs.emit _).nil_bind fun _ ↦ (Needs.startBlock _).nil_bind fun _ ↦ ?_
    refine (lowerExpr_needs cond hc).bind fun c ↦ (Needs.emit _).nil_bind fun _ ↦ ?_
    refine (Needs.startBlock _).nil_bind fun _ ↦ Needs.openScope.nil_bind fun _ ↦ ?_
    refine (lowerStmt_needs body hb).bind_nil fun _ ↦ Needs.closeScope.nil_bind fun _ ↦ ?_
    exact (Needs.emit _).nil_bind fun _ ↦ .startBlock mergeLabel
  | .block stmts, Γ, scope, outer, h => by
    rw [lowerStmt, Typed.Stmt.free]
    exact Needs.openScope.nil_bind fun _ ↦ (lowerStmts_needs stmts h).bind_nil fun _ ↦ .closeScope
  | .call callee args true, Γ, scope, outer, ⟨ha, _, _⟩ => by
    rw [lowerStmt, Typed.Stmt.free]
    refine (lowerPrints_needs ha).bind_nil fun _ ↦ ?_
    split
    · exact .emit _
    · exact .pure ()
  | .call callee args false, Γ, scope, outer, ⟨ha, _⟩ => by
    rw [lowerStmt, Typed.Stmt.free]
    exact (lowerExprs_needs args ha).bind_nil fun xs ↦ .emit _
  | .empty, Γ, scope, outer, _ => by
    rw [lowerStmt, Typed.Stmt.free]
    exact .pure ()

theorem lowerStmts_needs : ∀ (ss : List Typed.Stmt) {Γ : Typing.Scope} {scope : List Bytes}
    {outer : List (List Bytes)}, Typed.Stmt.AllWellTyped Γ ss →
    Needs globals function (lowerStmts ss) (scope :: outer) ((declaredAll ss ++ scope) :: outer)
      (Typed.Stmt.freeAll (scope ++ outer.flatten) ss)
  | [], Γ, scope, outer, _ => by
    rw [lowerStmts, Typed.Stmt.freeAll]
    exact .pure ()
  | st :: ss, Γ, scope, outer, ⟨hs, hss⟩ => by
    have hrest := @lowerStmts_needs ss (st.after Γ) (declared st ++ scope) outer hss
    rw [List.append_assoc (declared st)] at hrest
    rw [lowerStmts, Typed.Stmt.freeAll, declaredAll, List.append_assoc]
    exact (lowerStmt_needs st hs).bind fun _ ↦ hrest

end

theorem paramRegisters_scalar {ps : List Typed.Param}
    (h : ∀ q ∈ ps, q.type ∈ ValueType.scalars) :
    ∃ rs, paramRegisters ps = .ok rs ∧ rs.length = ps.length := by
  induction ps with
  | nil => exact ⟨[], rfl, rfl⟩
  | cons q ps ih =>
    obtain ⟨hq, hps⟩ := List.forall_mem_cons.1 h
    obtain ⟨ty, hty⟩ := typeOf_ok hq
    obtain ⟨rs, hrs, hlen⟩ := ih hps
    refine ⟨⟨Symbol.parameter q.name, ty⟩ :: rs, ?_,
      by rw [List.length_cons, hlen, List.length_cons]⟩
    simp [paramRegisters, hty, hrs, bind, Except.bind, pure, Except.pure]

theorem lowerParams_needs {ps : List Typed.Param} {rs : List Register} {scope : List Bytes}
    (h : rs.length = ps.length) :
    Needs globals function (lowerParams ps rs) (scope :: outer)
      (((ps.map Typed.Param.name).reverse ++ scope) :: outer) [] := by
  induction ps generalizing rs scope with
  | nil => exact .pure ()
  | cons q ps ih =>
    cases rs with
    | nil => cases h
    | cons r rs =>
      rw [List.map_cons, List.reverse_cons, List.append_assoc, List.singleton_append, lowerParams]
      refine (Needs.define _ _).nil_bind fun slot ↦ (Needs.emit _).nil_bind fun _ ↦ ?_
      exact (Needs.bindName q.name slot).nil_bind fun _ ↦ ih (Nat.succ.inj h)

theorem lowerBody_needs {Γ : Typing.Scope} {name : Bytes} {params : List Typed.Param}
    {registers : List Register} {body : List Typed.Stmt} {result : Option Typed.Result}
    (h : Typed.Decl.WellTyped Γ (.fun_ name params body result))
    (hr : registers.length = params.length) :
    Needs globals function (lowerBody params registers body result) [] []
      (Typed.Decl.free (.fun_ name params body result)) := by
  obtain ⟨-, -, hb, hres⟩ := h
  unfold lowerBody
  refine Needs.openScope.nil_bind fun _ ↦ (lowerParams_needs hr).nil_bind fun _ ↦ ?_
  have hbody := @lowerStmts_needs globals function body _
    ((params.map Typed.Param.name).reverse ++ []) [] hb
  simp only [List.flatten_nil, List.append_nil] at hbody ⊢
  refine hbody.bind fun _ ↦ ?_
  cases result with
  | none => exact (Needs.emit _).nil_bind fun _ ↦ .closeScope
  | some r =>
    have hv := (hres r rfl).1
    have he := @lowerExpr_needs globals function
      [declaredAll body ++ (params.map Typed.Param.name).reverse] _ r.value hv
    simp only [List.flatten_cons, List.flatten_nil, List.append_nil] at he
    exact he.bind_nil fun x ↦ (Needs.emit _).nil_bind fun _ ↦ .closeScope

theorem lowerMainBody_needs {Γ : Typing.Scope} {body : Typed.Stmt} (h : body.WellTyped Γ) :
    Needs globals function (lowerMainBody body) [] [] (body.free []) :=
  Needs.openScope.nil_bind fun _ ↦ (lowerStmt_needs body h).bind_nil fun _ ↦
    Needs.closeScope.nil_bind fun _ ↦ .emit _

end PZero.Lowering
