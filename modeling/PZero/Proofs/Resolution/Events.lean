import PZero.Proofs.Lowering.Free
import PZero.Proofs.Typing.Expressions
import PZero.Proofs.Typing.Program

namespace PZero

open Typing

/-- Opening and closing a scope, and declaring, reading and assigning a variable. -/
inductive ScopeEvent
  | enter
  | leave
  | declares (name : Bytes) (binding : Binding)
  | reads (name : Bytes)
  | assigns (name : Bytes)
  deriving Repr, DecidableEq

/-- Events in a scope of their own. -/
def ScopeEvent.enclosed (events : List ScopeEvent) : List ScopeEvent :=
  .enter :: (events ++ [.leave])

namespace Surface

mutual

def Expr.names : Expr → List Bytes
  | .conditional cond then_ else_ _ => cond.names ++ (then_.names ++ else_.names)
  | .binary _ left right _ | .binaryUnknown _ left right _ => left.names ++ right.names
  | .unary _ operand _ => operand.names
  | .call _ args _ => Expr.namesAll args
  | .ident name _ => [name]
  | .paren inner _ => inner.names
  | .int _ _ | .float _ _ | .string _ _ | .bool _ _ => []

def Expr.namesAll : List Expr → List Bytes
  | [] => []
  | e :: es => e.names ++ Expr.namesAll es

end

def Expr.events (e : Expr) : List ScopeEvent := e.names.map .reads

mutual

/-- The events of a statement where the names mean what they mean in some scopes. -/
def Stmt.events (scopes : Scopes) : Stmt → List ScopeEvent
  | .decl isConst name value _ =>
    value.events ++ [.declares name.name (valueBinding isConst (checkExpr scopes value).1.type)]
  | .assign name value _ => value.events ++ [.assigns name.name]
  | .if_ cond then_ none _ => cond.events ++ ScopeEvent.enclosed (then_.events scopes.enter)
  | .if_ cond then_ (some else_) _ =>
    cond.events ++
      (ScopeEvent.enclosed (then_.events scopes.enter) ++
        ScopeEvent.enclosed (else_.events scopes.enter))
  | .while_ cond body _ => cond.events ++ ScopeEvent.enclosed (body.events scopes.enter)
  | .block stmts _ => ScopeEvent.enclosed (Stmt.eventsAll scopes.enter stmts)
  | .call _ args _ => (Expr.namesAll args).map .reads
  | .empty _ => []

def Stmt.eventsAll (scopes : Scopes) : List Stmt → List ScopeEvent
  | [] => []
  | s :: ss => s.events scopes ++ Stmt.eventsAll (checkStmt scopes s).2.1 ss

end

def Param.event (p : Param) : ScopeEvent :=
  .declares p.name.name (.variable (valueType p.type.name))

/-- The events of a function. A constant or a variable of the top level has none. -/
def Decl.events (scopes : Scopes) : Decl → List ScopeEvent
  | .var _ _ _ _ => []
  | .fun_ _ params body result _ =>
    ScopeEvent.enclosed (params.map Param.event ++
      (Stmt.eventsAll (declareParams scopes.enter params).1 body ++
        result.elim [] fun r ↦ r.value.events))

end Surface

namespace Typed

def Expr.events (e : Expr) : List ScopeEvent := (e.free []).map .reads

mutual

def Stmt.events : Stmt → List ScopeEvent
  | .const name value => value.events ++ [.declares name (valueBinding true value.type)]
  | .let_ name value => value.events ++ [.declares name (valueBinding false value.type)]
  | .assign name value => value.events ++ [.assigns name]
  | .if_ cond then_ none => cond.events ++ ScopeEvent.enclosed then_.events
  | .if_ cond then_ (some else_) =>
    cond.events ++ (ScopeEvent.enclosed then_.events ++ ScopeEvent.enclosed else_.events)
  | .while_ cond body => cond.events ++ ScopeEvent.enclosed body.events
  | .block stmts => ScopeEvent.enclosed (Stmt.eventsAll stmts)
  | .call _ args _ => (Expr.freeAll [] args).map .reads
  | .empty | .missing => []

def Stmt.eventsAll : List Stmt → List ScopeEvent
  | [] => []
  | s :: ss => s.events ++ Stmt.eventsAll ss

end

def Param.event (p : Param) : ScopeEvent := .declares p.name (.variable p.type)

def funEvents (params : List Param) (body : List Stmt) (result : Option Result) : List ScopeEvent :=
  ScopeEvent.enclosed (params.map Param.event ++
    (Stmt.eventsAll body ++ result.elim [] fun r ↦ r.value.events))

end Typed

namespace Typing

variable {scopes scopes' : Scopes}

mutual

theorem checkExpr_names : ∀ (e : Surface.Expr) {x : Typed.Expr},
    checkExpr scopes e = (x, []) → x.free [] = e.names
  | .conditional cond then_ else_ _, x, h => by
    rcases ec : checkExpr scopes cond with ⟨c, cf⟩
    rcases et : checkExpr scopes then_ with ⟨t, tf⟩
    rcases ee : checkExpr scopes else_ with ⟨e, ef⟩
    simp only [checkExpr, ec, et, ee, Prod.mk.injEq, List.append_eq_nil_iff] at h
    obtain ⟨rfl, ⟨⟨⟨rfl, rfl⟩, rfl⟩, -⟩, -⟩ := h
    rw [Typed.Expr.free, checkExpr_names cond ec, checkExpr_names then_ et,
      checkExpr_names else_ ee, Surface.Expr.names]
  | .binary _ left right _, x, h => by
    rcases el : checkExpr scopes left with ⟨y, yf⟩
    rcases er : checkExpr scopes right with ⟨z, zf⟩
    simp only [checkExpr, el, er, Prod.mk.injEq, List.append_eq_nil_iff] at h
    obtain ⟨rfl, ⟨rfl, rfl⟩, -⟩ := h
    rw [Typed.Expr.free, checkExpr_names left el, checkExpr_names right er, Surface.Expr.names]
  | .binaryUnknown _ _ _ _, _, h => by simp [checkExpr] at h
  | .unary op operand span, x, h => by
    rcases negated_or_plain op operand with ⟨text, inner, rfl, rfl⟩ | hplain
    · rcases ev : intLiteral text true span with ⟨v, vf⟩
      simp only [checkExpr, ev, Prod.mk.injEq] at h
      obtain ⟨rfl, -⟩ := h
      rfl
    · rcases eo : checkExpr scopes operand with ⟨y, yf⟩
      rw [checkExpr_unary hplain] at h
      simp only [eo, Prod.mk.injEq, List.append_eq_nil_iff] at h
      obtain ⟨rfl, rfl, -⟩ := h
      rw [Typed.Expr.free, checkExpr_names operand eo, Surface.Expr.names]
  | .call callee args _, x, h => by
    rcases ea : checkExprs scopes args with ⟨xs, xf⟩
    simp only [checkExpr, ea] at h
    split at h <;> try simp at h
    split at h <;> simp at h
    obtain ⟨rfl, rfl, -⟩ := h
    rw [Typed.Expr.free, checkExprs_names args ea, Surface.Expr.names]
  | .ident name _, x, h => by
    simp only [checkExpr] at h
    split at h <;> simp at h
    all_goals
      subst h
      rfl
  | .paren inner _, x, h => by
    rw [Surface.Expr.names]
    exact checkExpr_names inner (by simpa only [checkExpr] using h)
  | .int text place, x, h => by
    simp only [checkExpr, Prod.mk.injEq] at h
    obtain ⟨rfl, -⟩ := h
    rfl
  | .float text place, x, h => by
    simp only [checkExpr, Prod.mk.injEq] at h
    obtain ⟨rfl, -⟩ := h
    rfl
  | .string _ _, _, h => by simp [checkExpr] at h
  | .bool _ _, x, h => by
    simp only [checkExpr, Prod.mk.injEq, and_true] at h
    subst h
    rfl

theorem checkExprs_names : ∀ (es : List Surface.Expr) {xs : List Typed.Expr},
    checkExprs scopes es = (xs, []) → Typed.Expr.freeAll [] xs = Surface.Expr.namesAll es
  | [], xs, h => by
    simp only [checkExprs, Prod.mk.injEq, and_true] at h
    subst h
    rfl
  | e :: es, xs, h => by
    rcases ee : checkExpr scopes e with ⟨y, yf⟩
    rcases es' : checkExprs scopes es with ⟨ys, ysf⟩
    simp only [checkExprs, ee, es', Prod.mk.injEq, List.append_eq_nil_iff] at h
    obtain ⟨rfl, rfl, rfl⟩ := h
    rw [Typed.Expr.freeAll, checkExpr_names e ee, checkExprs_names es es', Surface.Expr.namesAll]

end

theorem checkExpr_events {e : Surface.Expr} {x : Typed.Expr} (h : checkExpr scopes e = (x, [])) :
    x.events = e.events := by
  rw [Typed.Expr.events, checkExpr_names e h, Surface.Expr.events]

theorem checkArg_names {e : Surface.Expr} {x : Typed.Expr} (h : checkArg scopes e = (x, [])) :
    x.free [] = e.names := by
  cases e with
  | string text place =>
    simp only [checkArg] at h
    split at h <;> simp at h
    subst h
    rfl
  | _ => exact checkExpr_names _ (by simpa only [checkArg] using h)

theorem checkArgs_names {es : List Surface.Expr} {xs : List Typed.Expr}
    (h : checkArgs scopes es = (xs, [])) :
    Typed.Expr.freeAll [] xs = Surface.Expr.namesAll es := by
  induction es generalizing xs with
  | nil =>
    simp only [checkArgs, Prod.mk.injEq, and_true] at h
    subst h
    rfl
  | cons e es ih =>
    rcases ee : checkArg scopes e with ⟨y, yf⟩
    rcases es' : checkArgs scopes es with ⟨ys, ysf⟩
    simp only [checkArgs, ee, es', Prod.mk.injEq, List.append_eq_nil_iff] at h
    obtain ⟨rfl, rfl, rfl⟩ := h
    rw [Typed.Expr.freeAll, checkArg_names ee, ih es', Surface.Expr.namesAll]

theorem checkCallStmt_events {callee : Surface.Ident} {args : List Surface.Expr} {t : Typed.Stmt}
    (h : checkCallStmt scopes callee args = (t, [])) :
    t.events = (Surface.Expr.namesAll args).map .reads := by
  rcases ea : checkArgs scopes args with ⟨xs, xf⟩
  have hcall : ∀ {builtin : Bool}, xf = [] →
      (Typed.Stmt.call callee.name xs builtin).events =
        (Surface.Expr.namesAll args).map .reads := by
    rintro builtin rfl
    rw [Typed.Stmt.events, checkArgs_names ea]
  simp only [checkCallStmt, ea] at h
  split at h
  · split at h
    · simp only [Prod.mk.injEq] at h
      obtain ⟨rfl, hx⟩ := h
      exact hcall hx
    · simp at h
  · simp at h
  · simp at h
  · simp only [Prod.mk.injEq, List.append_eq_nil_iff] at h
    obtain ⟨rfl, ⟨hx, -⟩, -⟩ := h
    exact hcall hx

theorem checkStmt_decl_ok {isConst : Bool} {name : Surface.Ident} {value : Surface.Expr}
    {span : Span} {t : Typed.Stmt}
    (h : checkStmt scopes (.decl isConst name value span) = (t, scopes', [])) :
    ∃ x, checkExpr scopes value = (x, []) ∧
      scopes.declare name (valueBinding isConst x.type) = (scopes', []) ∧
      t = if isConst then .const name.name x else .let_ name.name x := by
  rcases ev : checkExpr scopes value with ⟨x, xf⟩
  cases isConst <;>
    simp only [checkStmt, ev, Prod.mk.injEq, List.append_eq_nil_iff] at h <;>
    obtain ⟨rfl, rfl, rfl, hd⟩ := h <;>
    exact ⟨x, rfl, Prod.ext rfl hd, rfl⟩

mutual

theorem checkStmt_events : ∀ (s : Surface.Stmt) {scopes scopes' : Scopes} {t : Typed.Stmt},
    checkStmt scopes s = (t, scopes', []) → t.events = s.events scopes
  | .decl isConst name value _, scopes, scopes', t, h => by
    obtain ⟨x, hx, -, rfl⟩ := checkStmt_decl_ok h
    rw [Surface.Stmt.events, hx, ← checkExpr_events hx]
    cases isConst <;> rfl
  | .assign name value _, scopes, scopes', t, h => by
    rcases ev : checkExpr scopes value with ⟨x, xf⟩
    simp only [checkStmt, checkAssign, ev, Prod.mk.injEq, List.append_eq_nil_iff] at h
    obtain ⟨rfl, -, rfl, -⟩ := h
    rw [Typed.Stmt.events, checkExpr_events ev, Surface.Stmt.events]
  | .if_ cond then_ none _, scopes, scopes', t, h => by
    rcases ec : checkExpr scopes cond with ⟨c, cf⟩
    rcases et : checkStmt scopes.enter then_ with ⟨u, inner, uf⟩
    simp only [checkStmt, ec, et, Prod.mk.injEq, List.append_eq_nil_iff] at h
    obtain ⟨rfl, -, ⟨rfl, -⟩, rfl⟩ := h
    rw [Typed.Stmt.events, checkExpr_events ec, checkStmt_events then_ et, Surface.Stmt.events]
  | .if_ cond then_ (some else_) _, scopes, scopes', t, h => by
    rcases ec : checkExpr scopes cond with ⟨c, cf⟩
    rcases et : checkStmt scopes.enter then_ with ⟨u, inner, uf⟩
    rcases ee : checkStmt scopes.enter else_ with ⟨v, inner', vf⟩
    simp only [checkStmt, ec, et, ee, Prod.mk.injEq, List.append_eq_nil_iff] at h
    obtain ⟨rfl, -, ⟨⟨rfl, -⟩, rfl⟩, rfl⟩ := h
    rw [Typed.Stmt.events, checkExpr_events ec, checkStmt_events then_ et,
      checkStmt_events else_ ee, Surface.Stmt.events]
  | .while_ cond body _, scopes, scopes', t, h => by
    rcases ec : checkExpr scopes cond with ⟨c, cf⟩
    rcases eb : checkStmt scopes.enter body with ⟨u, inner, uf⟩
    simp only [checkStmt, ec, eb, Prod.mk.injEq, List.append_eq_nil_iff] at h
    obtain ⟨rfl, -, ⟨rfl, -⟩, rfl⟩ := h
    rw [Typed.Stmt.events, checkExpr_events ec, checkStmt_events body eb, Surface.Stmt.events]
  | .block stmts _, scopes, scopes', t, h => by
    rcases eb : checkStmts scopes.enter stmts with ⟨us, inner, uf⟩
    simp only [checkStmt, eb, Prod.mk.injEq] at h
    obtain ⟨rfl, -, rfl⟩ := h
    rw [Typed.Stmt.events, checkStmts_events stmts eb, Surface.Stmt.events]
  | .call callee args _, scopes, scopes', t, h => by
    rcases ea : checkCallStmt scopes callee args with ⟨u, uf⟩
    simp only [checkStmt, ea, Prod.mk.injEq] at h
    obtain ⟨rfl, -, rfl⟩ := h
    rw [checkCallStmt_events ea, Surface.Stmt.events]
  | .empty _, scopes, scopes', t, h => by
    simp only [checkStmt, Prod.mk.injEq, and_true] at h
    obtain ⟨rfl, -⟩ := h
    rfl

theorem checkStmts_events : ∀ (ss : List Surface.Stmt) {scopes scopes' : Scopes}
    {ts : List Typed.Stmt}, checkStmts scopes ss = (ts, scopes', []) →
    Typed.Stmt.eventsAll ts = Surface.Stmt.eventsAll scopes ss
  | [], scopes, scopes', ts, h => by
    simp only [checkStmts, Prod.mk.injEq, and_true] at h
    obtain ⟨rfl, -⟩ := h
    rfl
  | s :: ss, scopes, scopes', ts, h => by
    rcases e : checkStmt scopes s with ⟨u, inner, uf⟩
    rcases es : checkStmts inner ss with ⟨us, inner', usf⟩
    simp only [checkStmts, e, es, Prod.mk.injEq, List.append_eq_nil_iff] at h
    obtain ⟨rfl, -, rfl, rfl⟩ := h
    rw [Typed.Stmt.eventsAll, checkStmt_events s e, checkStmts_events ss es,
      Surface.Stmt.eventsAll, e]

end

theorem checkDecl_events {name : Surface.Ident} {params : List Surface.Param}
    {body : List Surface.Stmt} {result : Option Surface.Result} {span : Span} {t : Typed.Decl}
    (h : checkDecl scopes (.fun_ name params body result span) = (t, [])) :
    ∃ params' body' result', t = .fun_ name.name params' body' result' ∧
      Typed.funEvents params' body' result' =
        (Surface.Decl.fun_ name params body result span).events scopes := by
  rcases ep : declareParams scopes.enter params with ⟨inner, pf⟩
  rcases eb : checkStmts inner body with ⟨ss, inner', sf⟩
  rcases er : checkResult inner' name result with ⟨r, rf⟩
  simp only [checkDecl, ep, eb, er, Prod.mk.injEq, List.append_eq_nil_iff] at h
  obtain ⟨rfl, ⟨rfl, rfl⟩, rfl⟩ := h
  refine ⟨_, _, _, rfl, ?_⟩
  have hp : (typedParams params).map Typed.Param.event = params.map Surface.Param.event := by
    simp [typedParams, Typed.Param.event, Surface.Param.event]
  have hr : (r.elim [] fun r ↦ r.value.events) = result.elim [] fun r ↦ r.value.events := by
    cases result with
    | none =>
      cases er
      rfl
    | some result =>
      rcases ev : checkExpr inner' result.value with ⟨x, xf⟩
      simp only [checkResult, ev, Prod.mk.injEq, List.append_eq_nil_iff] at er
      obtain ⟨rfl, rfl, -⟩ := er
      exact checkExpr_events ev
  rw [Typed.funEvents, hp, checkStmts_events body eb, hr, Surface.Decl.events, ep]

end Typing

end PZero
