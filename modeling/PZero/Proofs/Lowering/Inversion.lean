import Mathlib.Tactic.Common
import PZero.Lowering.Program

namespace PZero.Lowering

open IR

namespace Site

def emit (i : Instr) (s : Site) : Site := ⟨s.module, s.function.emit i⟩

def start (label : Bytes) (s : Site) : Site := ⟨s.module, s.function.startBlock label⟩

def next (type : Ty) (s : Site) : Register := ⟨Bytes.ofNat s.function.nextRegister, type⟩

def define (type : Ty) (make : Register → Instr) (s : Site) : Site :=
  ⟨s.module, (s.function.define type make).2⟩

def label (stem : String) (n : Nat) (s : Site) : Bytes :=
  ascii stem ++ ascii "_" ++ Bytes.ofNat (s.function.nextLabel + n)

def reserve (n : Nat) (s : Site) : Site :=
  ⟨s.module, { s.function with nextLabel := s.function.nextLabel + n }⟩

def enter (s : Site) : Site := ⟨s.module, s.function.openScope⟩

def leave (s : Site) : Site := ⟨s.module, { s.function with scopes := s.function.scopes.tail }⟩

def bind (name : Bytes) (x : Operand) (s : Site) : Site := ⟨s.module, s.function.bindName name x⟩

def intern (text : Bytes) (s : Site) : Site := ⟨(s.module.intern text).2, s.function⟩

def goto (target next : Bytes) (s : Site) : Site := (s.emit (.br target)).start next

def fork (cond : Operand) (yes no next : Bytes) (s : Site) : Site :=
  (s.emit (.condBr cond yes no)).start next

def slot (name : Bytes) (type : Ty) (x : Operand) (s : Site) : Site :=
  let address : Operand := .reg (s.next (.ptr type))
  ((s.define (.ptr type) (.alloca · type)).emit (.store x address)).bind name address

section Bind

variable (name : Bytes) (x : Operand) (s : Site)

@[simp] theorem bind_body : (s.bind name x).function.body = s.function.body := by
  cases h : s.function.scopes <;> simp [bind, Draft.bindName, h]

@[simp] theorem bind_current : (s.bind name x).function.current = s.function.current := by
  cases h : s.function.scopes <;> simp [bind, Draft.bindName, h]

@[simp] theorem bind_nextRegister :
    (s.bind name x).function.nextRegister = s.function.nextRegister := by
  cases h : s.function.scopes <;> simp [bind, Draft.bindName, h]

@[simp] theorem bind_scopes :
    (s.bind name x).function.scopes.flatten = (name, x) :: s.function.scopes.flatten := by
  cases h : s.function.scopes <;> simp [bind, Draft.bindName, h]

end Bind

end Site

namespace Lower

variable {α β : Type} {s : Site}

theorem bind_ok {a : Lower α} {f : α → Lower β} {r : β × Site} :
    (a >>= f) s = .ok r ↔ ∃ x s₁, a s = .ok (x, s₁) ∧ f x s₁ = .ok r := by
  change (Except.bind (a s) fun p ↦ f p.1 p.2) = .ok r ↔ _
  cases h : a s with
  | error e => simp [Except.bind]
  | ok p =>
    obtain ⟨x, s₁⟩ := p
    simp [Except.bind]

theorem pure_ok {x : α} {r : α × Site} : (pure x : Lower α) s = .ok r ↔ r = (x, s) := by
  change Except.ok (x, s) = .ok r ↔ _
  simp [eq_comm]

theorem throw_ok {c : Cause} {r : α × Site} : (throw c : Lower α) s = .ok r ↔ False := by
  change Except.error c = .ok r ↔ _
  simp

theorem lift_ok {e : Except Cause α} {r : α × Site} :
    (liftM e : Lower α) s = .ok r ↔ ∃ x, e = .ok x ∧ r = (x, s) := by
  change (Except.bind e fun x ↦ Except.ok (x, s)) = .ok r ↔ _
  cases e <;> simp [Except.bind, eq_comm]

theorem emit_ok {i : Instr} {r : Unit × Site} : emit i s = .ok r ↔ r = ((), s.emit i) := by
  change Except.ok ((), s.emit i) = .ok r ↔ _
  simp [eq_comm]

theorem define_ok {step : Draft → Register × Draft} {r : Operand × Site} :
    define step s = .ok r ↔
      r = (.reg (step s.function).1, ⟨s.module, (step s.function).2⟩) := by
  change Except.ok (Operand.reg (step s.function).1, Site.mk s.module (step s.function).2) =
    .ok r ↔ _
  simp [eq_comm]

theorem address_ok {name : Bytes} {r : Operand × Site} :
    address name s = .ok r ↔
      ∃ x, s.function.operand name s.module = .ok x ∧ r = (x, s) := by
  unfold address
  cases s.function.operand name s.module <;> simp [eq_comm]

theorem operand_ok {name : Bytes} {x : Operand} :
    s.function.operand name s.module = .ok x ↔
      s.function.scopes.findSome? (List.lookup name) = some x ∨
        s.function.scopes.findSome? (List.lookup name) = none ∧
          ∃ c, s.module.address? name = some c ∧ x = .const c := by
  unfold Draft.operand
  cases s.function.scopes.findSome? (List.lookup name) with
  | some y => simp [eq_comm]
  | none => cases s.module.address? name <;> simp [eq_comm]

end Lower

open Lower

theorem lowerExpr_ident_ok {type : ValueType} {name : Bytes} {s : Site} {r : Operand × Site}
    (h : lowerExpr (.ident type name) s = .ok r) :
    ∃ ty x, typeOf type = .ok ty ∧ s.function.operand name s.module = .ok x ∧
      r = (.reg (s.next ty), s.define ty (.load · ty x)) := by
  simp only [lowerExpr, bind_ok, lift_ok, address_ok, define_ok, Prod.mk.injEq] at h
  obtain ⟨ty, _, ⟨_, ht, rfl, rfl⟩, x, _, ⟨_, hx, rfl, rfl⟩, rfl⟩ := h
  exact ⟨ty, x, ht, hx, rfl⟩

theorem lowerStmt_assign_ok {name : Bytes} {value : Typed.Expr} {s : Site} {r : Unit × Site}
    (h : lowerStmt (.assign name value) s = .ok r) :
    ∃ x s₁ a, lowerExpr value s = .ok (x, s₁) ∧ s₁.function.operand name s₁.module = .ok a ∧
      r = ((), s₁.emit (.store x a)) := by
  simp only [lowerStmt, bind_ok, address_ok, emit_ok, Prod.mk.injEq] at h
  obtain ⟨x, s₁, hx, a, _, ⟨_, ha, rfl, rfl⟩, rfl⟩ := h
  exact ⟨x, _, a, hx, ha, rfl⟩

namespace Lower

variable {β : Type} {s : Site}

theorem newLabel_ok {stem : String} {r : Bytes × Site} :
    newLabel stem s = .ok r ↔ r = (s.label stem 0, s.reserve 1) := by
  change Except.ok (s.label stem 0, s.reserve 1) = .ok r ↔ _
  simp [eq_comm]

theorem startBlock_ok {label : Bytes} {r : Unit × Site} :
    startBlock label s = .ok r ↔ r = ((), s.start label) := by
  change Except.ok ((), s.start label) = .ok r ↔ _
  simp [eq_comm]

theorem currentLabel_ok {r : Bytes × Site} :
    currentLabel s = .ok r ↔ r = (s.function.current, s) := by
  change Except.ok (s.function.current, s) = .ok r ↔ _
  simp [eq_comm]

theorem openScope_ok {r : Unit × Site} : openScope s = .ok r ↔ r = ((), s.enter) := by
  change Except.ok ((), s.enter) = .ok r ↔ _
  simp [eq_comm]

theorem closeScope_ok {r : Unit × Site} :
    closeScope s = .ok r ↔ s.function.scopes ≠ [] ∧ r = ((), s.leave) := by
  unfold closeScope Draft.closeScope Site.leave
  cases s.function.scopes <;> simp [eq_comm]

theorem bindName_ok {name : Bytes} {x : Operand} {r : Unit × Site} :
    bindName name x s = .ok r ↔ r = ((), s.bind name x) := by
  change Except.ok ((), s.bind name x) = .ok r ↔ _
  simp [eq_comm]

theorem phi_ok {first : Incoming} {rest : List Incoming} {r : Operand × Site} :
    phi (first :: rest) s = .ok r ↔
      r = (.reg (s.next first.value.type),
        s.define first.value.type (.phi · (first :: rest))) := by
  change Except.ok (Operand.reg (s.next first.value.type),
    s.define first.value.type (.phi · (first :: rest))) = .ok r ↔ _
  simp [eq_comm]

theorem intern_ok {text : Bytes} {r : Constant × Site} :
    intern text s = .ok r ↔ r = ((s.module.intern text).1, s.intern text) := by
  change Except.ok ((s.module.intern text).1, s.intern text) = .ok r ↔ _
  simp [eq_comm]

theorem emit_bind {i : Instr} {f : Unit → Lower β} : (emit i >>= f) s = f () (s.emit i) := rfl

theorem define_bind {step : Draft → Register × Draft} {f : Operand → Lower β} :
    (define step >>= f) s =
      f (.reg (step s.function).1) ⟨s.module, (step s.function).2⟩ := rfl

theorem newLabel_bind {stem : String} {f : Bytes → Lower β} :
    (newLabel stem >>= f) s = f (s.label stem 0) (s.reserve 1) := rfl

theorem startBlock_bind {label : Bytes} {f : Unit → Lower β} :
    (startBlock label >>= f) s = f () (s.start label) := rfl

theorem currentLabel_bind {f : Bytes → Lower β} :
    (currentLabel >>= f) s = f s.function.current s := rfl

theorem openScope_bind {f : Unit → Lower β} : (openScope >>= f) s = f () s.enter := rfl

theorem intern_bind {text : Bytes} {f : Constant → Lower β} :
    (intern text >>= f) s = f (s.module.intern text).1 (s.intern text) := rfl

end Lower

theorem lowerExpr_conditional_ok {cond then_ else_ : Typed.Expr} {s : Site} {r : Operand × Site}
    (h : lowerExpr (.conditional cond then_ else_) s = .ok r) :
    ∃ c s₁ x s₂ y s₃,
      lowerExpr cond s = .ok (c, s₁) ∧
      lowerExpr then_ ((s₁.reserve 3).fork c (s₁.label "then" 0) (s₁.label "else" 1)
        (s₁.label "then" 0)) = .ok (x, s₂) ∧
      lowerExpr else_ (s₂.goto (s₁.label "merge" 2) (s₁.label "else" 1)) = .ok (y, s₃) ∧
      r = (.reg (s₃.next x.type),
        (s₃.goto (s₁.label "merge" 2) (s₁.label "merge" 2)).define x.type
          (.phi · [⟨x, s₂.function.current⟩, ⟨y, s₃.function.current⟩])) := by
  simp only [lowerExpr, bind_ok, newLabel_bind, emit_bind, startBlock_bind, currentLabel_bind,
    phi_ok] at h
  obtain ⟨c, s₁, hc, x, s₂, hx, y, s₃, hy, rfl⟩ := h
  exact ⟨c, s₁, x, s₂, y, s₃, hc, hx, hy, rfl⟩

theorem lowerExpr_call_ok {type : ValueType} {callee : Bytes} {args : List Typed.Expr} {s : Site}
    {r : Operand × Site} (h : lowerExpr (.call type callee args) s = .ok r) :
    ∃ ty xs s₁, typeOf type = .ok ty ∧ lowerExprs args s = .ok (xs, s₁) ∧
      r = (.reg (s₁.next ty), s₁.define ty (.call · ty callee xs)) := by
  simp only [lowerExpr, bind_ok, lift_ok, define_ok, Prod.mk.injEq] at h
  obtain ⟨ty, _, ⟨_, ht, rfl, rfl⟩, xs, s₁, hxs, rfl⟩ := h
  exact ⟨ty, xs, s₁, ht, hxs, rfl⟩

theorem lowerLocal_ok {name : Bytes} {value : Typed.Expr} {s : Site} {r : Unit × Site}
    (h : lowerLocal name value s = .ok r) :
    ∃ x s₁ type, lowerExpr value s = .ok (x, s₁) ∧ typeOf value.type = .ok type ∧
      r = ((), s₁.slot name type x) := by
  simp only [lowerLocal, bind_ok, lift_ok, define_bind, emit_bind, bindName_ok, Prod.mk.injEq] at h
  obtain ⟨x, s₁, hx, type, _, ⟨_, ht, rfl, rfl⟩, rfl⟩ := h
  exact ⟨x, _, type, hx, ht, rfl⟩

theorem lowerPrint_string_ok {text : Bytes} {s : Site} {r : Unit × Site}
    (h : lowerPrint (.literal (.string text)) s = .ok r) :
    ∃ type, r = ((), ((s.intern text).define type
      (.gep · true (Constant.cString text).type (.const (s.module.intern text).1)
        [.const (.int32 0), .const (.int32 0)])).emit
          (.callVoid Library.printString [.reg ((s.intern text).next type)])) := by
  simp only [lowerPrint, lowerExpr, lowerLiteral, bind_ok, intern_bind, define_ok, Typed.Expr.type,
    Typed.Literal.type, emit_ok, Prod.mk.injEq] at h
  obtain ⟨x, s₁, ⟨rfl, rfl⟩, rfl⟩ := h
  exact ⟨_, rfl⟩

def Site.params : List Typed.Param → List Register → Site → Site
  | p :: ps, r :: rs, s => params ps rs (s.slot p.name r.type (.reg r))
  | _, _, s => s

theorem lowerParams_eq (ps : List Typed.Param) (rs : List Register) (s : Site) :
    lowerParams ps rs s = .ok ((), s.params ps rs) := by
  induction ps generalizing rs s with
  | nil => rfl
  | cons p ps ih =>
    cases rs with
    | nil => rfl
    | cons r rs => exact ih rs (s.slot p.name r.type (.reg r))

/-- An arm or a loop body, in a scope of its own. -/
def lowerScoped (body : Typed.Stmt) : Lower Unit := do
  openScope
  lowerStmt body
  closeScope

theorem lowerScoped_ok {body : Typed.Stmt} {s : Site} {r : Unit × Site}
    (h : lowerScoped body s = .ok r) :
    ∃ s₁, lowerStmt body s.enter = .ok ((), s₁) ∧ r = ((), s₁.leave) := by
  simp only [lowerScoped, bind_ok, openScope_bind, closeScope_ok] at h
  obtain ⟨_, s₁, hb, -, rfl⟩ := h
  exact ⟨s₁, hb, rfl⟩

theorem lowerStmt_block_ok {stmts : List Typed.Stmt} {s : Site} {r : Unit × Site}
    (h : lowerStmt (.block stmts) s = .ok r) :
    ∃ s₁, lowerStmts stmts s.enter = .ok ((), s₁) ∧ r = ((), s₁.leave) := by
  simp only [lowerStmt, bind_ok, openScope_bind, closeScope_ok] at h
  obtain ⟨_, s₁, hb, -, rfl⟩ := h
  exact ⟨s₁, hb, rfl⟩

theorem lowerStmt_print_ok {callee : Bytes} {args : List Typed.Expr} {s : Site} {r : Unit × Site}
    (h : lowerStmt (.call callee args true) s = .ok r) :
    ∃ s₁, lowerPrints args s = .ok ((), s₁) ∧
      r = ((), if callee = ascii "println" then s₁.emit (.callVoid Library.printLn [])
        else s₁) := by
  simp only [lowerStmt, bind_ok] at h
  obtain ⟨_, s₁, ha, h⟩ := h
  refine ⟨s₁, ha, ?_⟩
  split at h
  · next hc => rw [if_pos hc, emit_ok.1 h]
  · next hc => rw [if_neg hc, pure_ok.1 h]

theorem lowerStmt_call_ok {callee : Bytes} {args : List Typed.Expr} {s : Site} {r : Unit × Site}
    (h : lowerStmt (.call callee args false) s = .ok r) :
    ∃ xs s₁, lowerExprs args s = .ok (xs, s₁) ∧ r = ((), s₁.emit (.callVoid callee xs)) := by
  simp only [lowerStmt, bind_ok, emit_ok] at h
  exact h

theorem lowerStmt_if_ok {cond : Typed.Expr} {then_ : Typed.Stmt} {s : Site} {r : Unit × Site}
    (h : lowerStmt (.if_ cond then_ none) s = .ok r) :
    ∃ c s₁ s₂,
      lowerExpr cond s = .ok (c, s₁) ∧
      lowerScoped then_ ((s₁.reserve 2).fork c (s₁.label "then" 0) (s₁.label "merge" 1)
        (s₁.label "then" 0)) = .ok ((), s₂) ∧
      r = ((), s₂.goto (s₁.label "merge" 1) (s₁.label "merge" 1)) := by
  simp only [lowerStmt, bind_ok, newLabel_bind, emit_bind, startBlock_bind, openScope_bind,
    startBlock_ok] at h
  obtain ⟨c, s₁, hc, _, s₂, hb, _, s₃, hs, rfl⟩ := h
  exact ⟨c, s₁, s₃, hc, bind_ok.2 ⟨(), _, rfl, bind_ok.2 ⟨(), s₂, hb, hs⟩⟩, rfl⟩

theorem lowerStmt_if_else_ok {cond : Typed.Expr} {then_ else_ : Typed.Stmt} {s : Site}
    {r : Unit × Site} (h : lowerStmt (.if_ cond then_ (some else_)) s = .ok r) :
    ∃ c s₁ s₂ s₃,
      lowerExpr cond s = .ok (c, s₁) ∧
      lowerScoped then_ ((s₁.reserve 3).fork c (s₁.label "then" 0) (s₁.label "else" 1)
        (s₁.label "then" 0)) = .ok ((), s₂) ∧
      lowerScoped else_ (s₂.goto (s₁.label "merge" 2) (s₁.label "else" 1)) = .ok ((), s₃) ∧
      r = ((), s₃.goto (s₁.label "merge" 2) (s₁.label "merge" 2)) := by
  simp only [lowerStmt, bind_ok, newLabel_bind, emit_bind, startBlock_bind, openScope_bind,
    startBlock_ok] at h
  obtain ⟨c, s₁, hc, _, s₂, hb, _, s₃, hs, _, s₄, hb', _, s₅, hs', rfl⟩ := h
  exact ⟨c, s₁, s₃, s₅, hc, bind_ok.2 ⟨(), _, rfl, bind_ok.2 ⟨(), s₂, hb, hs⟩⟩,
    bind_ok.2 ⟨(), _, rfl, bind_ok.2 ⟨(), s₄, hb', hs'⟩⟩, rfl⟩

theorem lowerStmt_while_ok {cond : Typed.Expr} {body : Typed.Stmt} {s : Site} {r : Unit × Site}
    (h : lowerStmt (.while_ cond body) s = .ok r) :
    ∃ c s₁ s₂,
      lowerExpr cond ((s.reserve 3).goto (s.label "while" 0) (s.label "while" 0)) = .ok (c, s₁) ∧
      lowerScoped body (s₁.fork c (s.label "body" 1) (s.label "merge" 2) (s.label "body" 1)) =
        .ok ((), s₂) ∧
      r = ((), s₂.goto (s.label "while" 0) (s.label "merge" 2)) := by
  simp only [lowerStmt, bind_ok, newLabel_bind, emit_bind, startBlock_bind, openScope_bind,
    startBlock_ok] at h
  obtain ⟨c, s₁, hc, _, s₂, hb, _, s₃, hs, rfl⟩ := h
  exact ⟨c, s₁, s₃, hc, bind_ok.2 ⟨(), _, rfl, bind_ok.2 ⟨(), s₂, hb, hs⟩⟩, rfl⟩

theorem paramRegisters_cons {q : Typed.Param} {ps : List Typed.Param} {rs : List Register}
    (h : paramRegisters (q :: ps) = .ok rs) :
    ∃ type rs', typeOf q.type = .ok type ∧ paramRegisters ps = .ok rs' ∧
      rs = ⟨Symbol.parameter q.name, type⟩ :: rs' := by
  simp only [paramRegisters] at h
  cases ht : typeOf q.type with
  | error e => simp [ht, bind, Except.bind] at h
  | ok type =>
    cases hr : paramRegisters ps with
    | error e => simp [ht, hr, bind, Except.bind] at h
    | ok rs' =>
      simp only [ht, hr, bind, Except.bind, pure, Except.pure, Except.ok.injEq] at h
      exact ⟨type, rs', rfl, rfl, h.symm⟩

theorem lowerBody_ok {params : List Typed.Param} {registers : List Register}
    {body : List Typed.Stmt} {result : Option Typed.Result} {s : Site} {r : Unit × Site}
    (h : lowerBody params registers body result s = .ok r) :
    ∃ s₁, lowerStmts body (s.enter.params params registers) = .ok ((), s₁) ∧
      (result = none ∧ r = ((), (s₁.emit .retVoid).leave) ∨
        ∃ value x s₂, result = some value ∧ lowerExpr value.value s₁ = .ok (x, s₂) ∧
          r = ((), (s₂.emit (.ret x)).leave)) := by
  simp only [lowerBody, openScope_bind, bind_ok, lowerParams_eq, Except.ok.injEq,
    Prod.mk.injEq] at h
  obtain ⟨_, _, ⟨-, rfl⟩, _, s₁, hs, h⟩ := h
  refine ⟨s₁, hs, ?_⟩
  cases result with
  | none =>
    simp only [emit_bind, closeScope_ok] at h
    exact .inl ⟨rfl, h.2⟩
  | some value =>
    simp only [bind_ok, emit_bind, closeScope_ok] at h
    obtain ⟨x, s₂, hx, -, hr⟩ := h
    exact .inr ⟨value, x, s₂, rfl, hx, hr⟩

theorem lowerMainBody_ok {body : Typed.Stmt} {s : Site} {r : Unit × Site}
    (h : lowerMainBody body s = .ok r) :
    ∃ s₁, lowerStmt body s.enter = .ok ((), s₁) ∧
      r = ((), s₁.leave.emit (.ret (.const (.int32 0)))) := by
  simp only [lowerMainBody, openScope_bind, bind_ok, closeScope_ok, emit_ok, Prod.mk.injEq] at h
  obtain ⟨_, s₁, hb, _, _, ⟨-, -, rfl⟩, rfl⟩ := h
  exact ⟨s₁, hb, rfl⟩

end PZero.Lowering
