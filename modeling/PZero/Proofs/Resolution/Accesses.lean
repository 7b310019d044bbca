import PZero.Proofs.Resolution.Events
import PZero.Proofs.Resolution.Marks

namespace PZero

namespace IR

/-- The address that an instruction sets up, reads or writes. -/
def Instr.access? : Instr → Option (Access Operand)
  | .alloca dst _ => some (.slot (.reg dst))
  | .load _ _ addr => some (.load addr)
  | .store _ addr => some (.store addr)
  | _ => none

def accesses (code : List Instr) : List (Access Operand) := code.filterMap Instr.access?

def slots (code : List Instr) : List Register :=
  (accesses code).filterMap fun
    | .slot (.reg r) => some r
    | _ => none

theorem accesses_append (a b : List Instr) : accesses (a ++ b) = accesses a ++ accesses b :=
  List.filterMap_append

theorem slots_append (a b : List Instr) : slots (a ++ b) = slots a ++ slots b := by
  rw [slots, accesses_append, List.filterMap_append, slots, slots]

theorem slots_eq_nil {code : List Instr} (h : accesses code = []) : slots code = [] := by
  rw [slots, h]
  rfl

end IR

namespace Lowering

open IR Lower
open Typing (oneStmt)

/-- A part of lowering that does nothing with names and memory. -/
structure Site.Quiet (s s' : Site) : Prop where
  body : ∃ code, s'.function.body = s.function.body ++ code ∧ accesses code = []
  register_le : s.function.nextRegister ≤ s'.function.nextRegister
  scopes : s'.function.scopes = s.function.scopes
  addresses : s'.module.addresses = s.module.addresses

namespace Site.Quiet

variable {s s₁ s₂ : Site}

theorem refl (s : Site) : s.Quiet s where
  body := ⟨[], (List.append_nil _).symm, rfl⟩
  register_le := Nat.le_refl _
  scopes := rfl
  addresses := rfl

theorem trans (h : s.Quiet s₁) (h' : s₁.Quiet s₂) : s.Quiet s₂ where
  body := by
    obtain ⟨a, ha, hn⟩ := h.body
    obtain ⟨b, hb, hn'⟩ := h'.body
    refine ⟨a ++ b, by rw [hb, ha, List.append_assoc], ?_⟩
    rw [accesses_append, hn, hn']
    rfl
  register_le := Nat.le_trans h.register_le h'.register_le
  scopes := h'.scopes.trans h.scopes
  addresses := h'.addresses.trans h.addresses

theorem emit (h : s.Quiet s₁) (i : Instr) (hi : i.access? = none) : s.Quiet (s₁.emit i) :=
  h.trans { refl s₁ with body := ⟨[i], rfl, by simp [accesses, hi]⟩ }

theorem define (h : s.Quiet s₁) (type : Ty) (make : Register → Instr)
    (hm : ∀ r, (make r).access? = none) : s.Quiet (s₁.define type make) :=
  h.trans
    { refl s₁ with
      body := ⟨[make (s₁.next type)], rfl, by simp [accesses, hm]⟩
      register_le := Nat.le_succ _ }

theorem start (h : s.Quiet s₁) (label : Bytes) : s.Quiet (s₁.start label) :=
  h.trans { refl s₁ with body := ⟨[.label label], rfl, rfl⟩ }

theorem reserve (h : s.Quiet s₁) (n : Nat) : s.Quiet (s₁.reserve n) := { h with }

theorem goto (h : s.Quiet s₁) (target next : Bytes) : s.Quiet (s₁.goto target next) :=
  (h.emit (.br target) rfl).start next

theorem fork (h : s.Quiet s₁) (cond : Operand) (yes no next : Bytes) :
    s.Quiet (s₁.fork cond yes no next) :=
  (h.emit (.condBr cond yes no) rfl).start next

theorem intern (h : s.Quiet s₁) (text : Bytes) : s.Quiet (s₁.intern text) where
  body := h.body
  register_le := h.register_le
  scopes := h.scopes
  addresses := by
    obtain ⟨n, texts, hi, -⟩ := s₁.module.intern_eq text
    rw [Site.intern, hi]
    exact h.addresses

end Site.Quiet

section Slot

variable (name : Bytes) (type : Ty) (x : Operand) (s : Site)

theorem slot_accesses : accesses (s.slot name type x).function.body =
    accesses s.function.body ++
      [.slot (.reg (s.next (.ptr type))), .store (.reg (s.next (.ptr type)))] := by
  have hbody : (s.slot name type x).function.body =
      s.function.body ++ [.alloca (s.next (.ptr type)) type] ++
        [.store x (.reg (s.next (.ptr type)))] := by
    rw [Site.slot, Site.bind_body]
    rfl
  rw [hbody, accesses_append, accesses_append, List.append_assoc]
  rfl

theorem slot_slots : slots (s.slot name type x).function.body =
    slots s.function.body ++ [s.next (.ptr type)] := by
  rw [slots, slot_accesses, List.filterMap_append]
  rfl

theorem slot_nextRegister :
    (s.slot name type x).function.nextRegister = s.function.nextRegister + 1 := by
  rw [Site.slot, Site.bind_nextRegister]
  rfl

theorem slot_scopes {scope : List (Bytes × Operand)} {outer : List (List (Bytes × Operand))}
    (h : s.function.scopes = scope :: outer) : (s.slot name type x).function.scopes =
      ((name, .reg (s.next (.ptr type))) :: scope) :: outer := by
  simp only [Site.slot, Site.bind, Draft.bindName, Site.emit, Draft.emit, Site.define,
    Draft.define, h]

end Slot

/-- Lowering performs one event, with a number of scopes open before it and behind it. -/
inductive Site.Does : Nat → Site → ScopeEvent → Nat → Site → Prop
  | enter (d : Nat) (s : Site) : Does d s .enter (d + 1) s.enter
  | leave (d : Nat) (s : Site) : Does (d + 1) s .leave d s.leave
  | declares (d : Nat) (s : Site) (name : Bytes) (binding : Typing.Binding) (type : Ty)
    (x : Operand) : Does (d + 1) s (.declares name binding) (d + 1) (s.slot name type x)
  | reads {d : Nat} {s : Site} {name : Bytes} {a : Operand} (type : Ty) :
    s.function.operand name s.module = .ok a →
    Does d s (.reads name) d (s.define type (.load · type a))
  | assigns {d : Nat} {s : Site} {name : Bytes} {a : Operand} (x : Operand) :
    s.function.operand name s.module = .ok a → Does d s (.assigns name) d (s.emit (.store x a))

/-- Lowering performs events one after another. -/
inductive Site.Performs : Nat → Site → List ScopeEvent → Nat → Site → Prop
  | quiet {s s' : Site} (d : Nat) : s.Quiet s' → Performs d s [] d s'
  | does {d d' : Nat} {s s' : Site} {e : ScopeEvent} : s.Does d e d' s' → Performs d s [e] d' s'
  | trans {d d₁ d' : Nat} {s s₁ s' : Site} {es es' : List ScopeEvent} : Performs d s es d₁ s₁ →
    Performs d₁ s₁ es' d' s' → Performs d s (es ++ es') d' s'

namespace Site.Performs

variable {d d' : Nat} {s s₁ s' : Site} {es : List ScopeEvent}

theorem before (h : s.Quiet s₁) (hp : s₁.Performs d es d' s') : s.Performs d es d' s' :=
  (quiet d h).trans hp

theorem behind (hp : s.Performs d es d' s₁) (h : s₁.Quiet s') : s.Performs d es d' s' := by
  rw [← List.append_nil es]
  exact hp.trans (quiet d' h)

theorem enclosed (hp : s.enter.Performs (d + 1) es (d + 1) s₁) :
    s.Performs d (ScopeEvent.enclosed es) d s₁.leave :=
  (does (.enter d s)).trans (hp.trans (does (.leave d s₁)))

end Site.Performs

theorem lowerBinary_quiet {op : BinaryOp} {type : ValueType} {x y z : Operand} {s s' : Site}
    (h : lowerBinary op type x y s = .ok (z, s')) : s.Quiet s' := by
  cases op <;> cases type <;>
    simp only [lowerBinary, comparison?, define_ok, throw_ok, Prod.mk.injEq] at h <;>
    obtain ⟨-, rfl⟩ := h <;>
    exact (Site.Quiet.refl _).define _ _ fun _ ↦ rfl

theorem lowerUnary_quiet {op : UnaryOp} {type : ValueType} {x z : Operand} {s s' : Site}
    (h : lowerUnary op type x s = .ok (z, s')) : s.Quiet s' := by
  unfold lowerUnary at h
  split at h <;> simp only [define_ok, throw_ok, pure_ok, Prod.mk.injEq] at h <;>
    obtain ⟨-, rfl⟩ := h
  · exact .refl _
  all_goals exact (Site.Quiet.refl _).define _ _ fun _ ↦ rfl

theorem lowerLiteral_quiet {v : Typed.Literal} {x : Operand} {s s' : Site}
    (h : lowerLiteral v s = .ok (x, s')) : s.Quiet s' := by
  cases v with
  | string text =>
    simp only [lowerLiteral, intern_bind, define_ok, Prod.mk.injEq] at h
    obtain ⟨-, rfl⟩ := h
    exact ((Site.Quiet.refl s).intern text).define _ _ fun _ ↦ rfl
  | _ =>
    simp only [lowerLiteral, pure_ok, Prod.mk.injEq] at h
    obtain ⟨-, rfl⟩ := h
    exact .refl _

mutual

theorem lowerExpr_performs (d : Nat) : ∀ (e : Typed.Expr) {s s' : Site} {x : Operand},
    lowerExpr e s = .ok (x, s') → s.Performs d e.events d s'
  | .literal v, s, s', x, h => .quiet d (lowerLiteral_quiet (by simpa only [lowerExpr] using h))
  | .unary op operand, s, s', x, h => by
    simp only [lowerExpr, bind_ok] at h
    obtain ⟨y, s₁, hy, h⟩ := h
    exact (lowerExpr_performs d operand hy).behind (lowerUnary_quiet h)
  | .unaryUnknown operand, s, s', x, h => by simp [lowerExpr, bind_ok, throw_ok] at h
  | .binary op left right, s, s', x, h => by
    simp only [lowerExpr, bind_ok] at h
    obtain ⟨y, s₁, hy, z, s₂, hz, h⟩ := h
    rw [Typed.Expr.events, Typed.Expr.free, List.map_append]
    exact (lowerExpr_performs d left hy).trans
      ((lowerExpr_performs d right hz).behind (lowerBinary_quiet h))
  | .conditional cond then_ else_, s, s', x, h => by
    obtain ⟨c, s₁, y, s₂, z, s₃, hc, hy, hz, h⟩ := lowerExpr_conditional_ok h
    cases h
    rw [Typed.Expr.events, Typed.Expr.free, List.map_append, List.map_append]
    have hfork := ((Site.Quiet.refl s₁).reserve 3).fork c (s₁.label "then" 0) (s₁.label "else" 1)
      (s₁.label "then" 0)
    have hgoto := (Site.Quiet.refl s₂).goto (s₁.label "merge" 2) (s₁.label "else" 1)
    have hmerge := ((Site.Quiet.refl s₃).goto (s₁.label "merge" 2) (s₁.label "merge" 2)).define
      y.type (.phi · [⟨y, s₂.function.current⟩, ⟨z, s₃.function.current⟩]) fun _ ↦ rfl
    exact (lowerExpr_performs d cond hc).trans
      (.before hfork ((lowerExpr_performs d then_ hy).trans
        (.before hgoto ((lowerExpr_performs d else_ hz).behind hmerge))))
  | .ident type name, s, s', x, h => by
    obtain ⟨ty, a, -, ha, h⟩ := lowerExpr_ident_ok h
    cases h
    exact .does (.reads ty ha)
  | .call type callee args, s, s', x, h => by
    obtain ⟨ty, xs, s₁, -, hxs, h⟩ := lowerExpr_call_ok h
    cases h
    exact (lowerExprs_performs d args hxs).behind
      ((Site.Quiet.refl s₁).define ty (.call · ty callee xs) fun _ ↦ rfl)
  | .missing, s, s', x, h => by simp [lowerExpr, throw_ok] at h

theorem lowerExprs_performs (d : Nat) : ∀ (es : List Typed.Expr) {s s' : Site}
    {xs : List Operand}, lowerExprs es s = .ok (xs, s') →
    s.Performs d ((Typed.Expr.freeAll [] es).map .reads) d s'
  | [], s, s', xs, h => by
    simp only [lowerExprs, pure_ok, Prod.mk.injEq] at h
    obtain ⟨-, rfl⟩ := h
    exact .quiet d (.refl _)
  | e :: es, s, s', xs, h => by
    simp only [lowerExprs, bind_ok, pure_ok, Prod.mk.injEq] at h
    obtain ⟨y, s₁, hy, ys, s₂, hys, -, rfl⟩ := h
    rw [Typed.Expr.freeAll, List.map_append]
    exact (lowerExpr_performs d e hy).trans (lowerExprs_performs d es hys)

end

theorem lowerPrint_performs (d : Nat) {value : Typed.Expr} {s s' : Site}
    (h : lowerPrint value s = .ok ((), s')) : s.Performs d value.events d s' := by
  simp only [lowerPrint, bind_ok] at h
  obtain ⟨x, s₁, hx, h⟩ := h
  refine (lowerExpr_performs d value hx).behind ?_
  cases ht : value.type <;>
    simp only [ht, define_bind, emit_ok, throw_ok, Prod.mk.injEq] at h <;> obtain ⟨-, rfl⟩ := h
  case bool => exact ((Site.Quiet.refl s₁).define _ (.zext · x (.int 8)) fun _ ↦ rfl).emit _ rfl
  all_goals exact (Site.Quiet.refl s₁).emit _ rfl

theorem lowerPrints_performs (d : Nat) {es : List Typed.Expr} {s s' : Site}
    (h : lowerPrints es s = .ok ((), s')) :
    s.Performs d ((Typed.Expr.freeAll [] es).map .reads) d s' := by
  induction es generalizing s with
  | nil =>
    simp only [lowerPrints, pure_ok, Prod.mk.injEq] at h
    obtain ⟨-, rfl⟩ := h
    exact .quiet d (.refl _)
  | cons e es ih =>
    simp only [lowerPrints, bind_ok] at h
    obtain ⟨_, s₁, he, h⟩ := h
    rw [Typed.Expr.freeAll, List.map_append]
    exact (lowerPrint_performs d he).trans (ih h)

theorem lowerLocal_performs (d : Nat) {name : Bytes} {value : Typed.Expr} {s s' : Site}
    (binding : Typing.Binding) (h : lowerLocal name value s = .ok ((), s')) :
    s.Performs (d + 1) (value.events ++ [.declares name binding]) (d + 1) s' := by
  obtain ⟨x, s₁, type, hx, -, h⟩ := lowerLocal_ok h
  cases h
  exact (lowerExpr_performs (d + 1) value hx).trans (.does (.declares d s₁ name binding type x))

theorem lowerScoped_performs {d : Nat} {body : Typed.Stmt} {s s' : Site} {es : List ScopeEvent}
    (h : lowerScoped body s = .ok ((), s'))
    (ih : ∀ {s₁}, lowerStmt body s.enter = .ok ((), s₁) →
      s.enter.Performs (d + 1) es (d + 1) s₁) : s.Performs d (ScopeEvent.enclosed es) d s' := by
  obtain ⟨s₁, hb, h⟩ := lowerScoped_ok h
  cases h
  exact (ih hb).enclosed

mutual

theorem lowerStmt_performs : ∀ (st : Typed.Stmt) (d : Nat) {s s' : Site},
    lowerStmt st s = .ok ((), s') → s.Performs (d + 1) st.events (d + 1) s'
  | .const name value, d, s, s', h =>
    lowerLocal_performs d _ (by simpa only [lowerStmt] using h)
  | .let_ name value, d, s, s', h =>
    lowerLocal_performs d _ (by simpa only [lowerStmt] using h)
  | .assign name value, d, s, s', h => by
    obtain ⟨x, s₁, a, hx, ha, h⟩ := lowerStmt_assign_ok h
    cases h
    exact (lowerExpr_performs (d + 1) value hx).trans (.does (.assigns x ha))
  | .if_ cond then_ none, d, s, s', h => by
    obtain ⟨c, s₁, s₂, hc, ht, h⟩ := lowerStmt_if_ok h
    cases h
    have hfork := ((Site.Quiet.refl s₁).reserve 2).fork c (s₁.label "then" 0)
      (s₁.label "merge" 1) (s₁.label "then" 0)
    have hmerge := (Site.Quiet.refl s₂).goto (s₁.label "merge" 1) (s₁.label "merge" 1)
    exact (lowerExpr_performs (d + 1) cond hc).trans
      (.before hfork ((lowerScoped_performs ht (lowerStmt_performs then_ (d + 1))).behind hmerge))
  | .if_ cond then_ (some else_), d, s, s', h => by
    obtain ⟨c, s₁, s₂, s₃, hc, ht, he, h⟩ := lowerStmt_if_else_ok h
    cases h
    have hfork := ((Site.Quiet.refl s₁).reserve 3).fork c (s₁.label "then" 0) (s₁.label "else" 1)
      (s₁.label "then" 0)
    have hgoto := (Site.Quiet.refl s₂).goto (s₁.label "merge" 2) (s₁.label "else" 1)
    have hmerge := (Site.Quiet.refl s₃).goto (s₁.label "merge" 2) (s₁.label "merge" 2)
    exact (lowerExpr_performs (d + 1) cond hc).trans
      (.before hfork ((lowerScoped_performs ht (lowerStmt_performs then_ (d + 1))).trans
        (.before hgoto
          ((lowerScoped_performs he (lowerStmt_performs else_ (d + 1))).behind hmerge))))
  | .while_ cond body, d, s, s', h => by
    obtain ⟨c, s₁, s₂, hc, hb, h⟩ := lowerStmt_while_ok h
    cases h
    have hhead := ((Site.Quiet.refl s).reserve 3).goto (s.label "while" 0) (s.label "while" 0)
    have hfork := (Site.Quiet.refl s₁).fork c (s.label "body" 1) (s.label "merge" 2)
      (s.label "body" 1)
    have hmerge := (Site.Quiet.refl s₂).goto (s.label "while" 0) (s.label "merge" 2)
    exact .before hhead ((lowerExpr_performs (d + 1) cond hc).trans
      (.before hfork ((lowerScoped_performs hb (lowerStmt_performs body (d + 1))).behind hmerge)))
  | .block stmts, d, s, s', h => by
    obtain ⟨s₁, hb, h⟩ := lowerStmt_block_ok h
    cases h
    exact (lowerStmts_performs stmts (d + 1) hb).enclosed
  | .call callee args true, d, s, s', h => by
    obtain ⟨s₁, ha, h⟩ := lowerStmt_print_ok h
    cases h
    refine (lowerPrints_performs (d + 1) ha).behind ?_
    split
    · exact (Site.Quiet.refl s₁).emit _ rfl
    · exact .refl s₁
  | .call callee args false, d, s, s', h => by
    obtain ⟨xs, s₁, hxs, h⟩ := lowerStmt_call_ok h
    cases h
    exact (lowerExprs_performs (d + 1) args hxs).behind ((Site.Quiet.refl s₁).emit _ rfl)
  | .empty, d, s, s', h => by
    simp only [lowerStmt, pure_ok, Prod.mk.injEq] at h
    obtain ⟨-, rfl⟩ := h
    exact .quiet (d + 1) (.refl _)
  | .missing, d, s, s', h => by simp [lowerStmt, throw_ok] at h

theorem lowerStmts_performs : ∀ (ss : List Typed.Stmt) (d : Nat) {s s' : Site},
    lowerStmts ss s = .ok ((), s') → s.Performs (d + 1) (Typed.Stmt.eventsAll ss) (d + 1) s'
  | [], d, s, s', h => by
    simp only [lowerStmts, pure_ok, Prod.mk.injEq] at h
    obtain ⟨-, rfl⟩ := h
    exact .quiet (d + 1) (.refl _)
  | st :: ss, d, s, s', h => by
    simp only [lowerStmts, bind_ok] at h
    obtain ⟨_, s₁, hs, h⟩ := h
    exact (lowerStmt_performs st d hs).trans (lowerStmts_performs ss d h)

end

theorem params_performs {ps : List Typed.Param} {rs : List Register}
    (h : paramRegisters ps = .ok rs) (d : Nat) (s : Site) :
    s.Performs (d + 1) (ps.map Typed.Param.event) (d + 1) (s.params ps rs) := by
  induction ps generalizing rs s with
  | nil => exact .quiet (d + 1) (.refl s)
  | cons p ps ih =>
    obtain ⟨type, rs', -, hr, rfl⟩ := paramRegisters_cons h
    exact (Site.Performs.does (.declares d s p.name _ type _)).trans (ih hr _)

theorem lowerBody_performs {params : List Typed.Param} {registers : List Register}
    {body : List Typed.Stmt} {result : Option Typed.Result} {s s' : Site}
    (hp : paramRegisters params = .ok registers)
    (h : lowerBody params registers body result s = .ok ((), s')) :
    s.Performs 0 (Typed.funEvents params body result) 0 s' := by
  obtain ⟨s₁, hs, hr⟩ := lowerBody_ok h
  have hparams := params_performs hp 0 s.enter
  have hbody := lowerStmts_performs body 0 hs
  rcases hr with ⟨rfl, hr⟩ | ⟨value, x, s₂, rfl, hx, hr⟩ <;> cases hr
  · have hret := (Site.Quiet.refl s₁).emit .retVoid rfl
    exact (hparams.trans (hbody.trans (.quiet 1 hret))).enclosed
  · have hret := (Site.Quiet.refl s₂).emit (.ret x) rfl
    exact (hparams.trans (hbody.trans ((lowerExpr_performs 1 value.value hx).behind hret))).enclosed

/-- A body of one statement stands for itself and is lowered in one scope, any other one in two. The
outer one stays empty. -/
theorem lowerMainBody_performs {ss : List Typed.Stmt} {s s' : Site}
    (h : lowerMainBody (oneStmt ss) s = .ok ((), s')) :
    ∃ s₀ s₁, (s₀ = s ∨ s₀ = s.enter) ∧ s₀.Performs 0 (Typed.funEvents [] ss none) 0 s₁ ∧
      accesses s'.function.body = accesses s₁.function.body := by
  obtain ⟨s₁, hb, h⟩ := lowerMainBody_ok h
  cases h
  have hret : accesses (s₁.leave.emit (.ret (.const (.int32 0)))).function.body =
      accesses s₁.function.body := by
    change accesses (s₁.function.body ++ _) = _
    rw [accesses_append]
    exact List.append_nil _
  have he : Typed.funEvents [] ss none = ScopeEvent.enclosed (Typed.Stmt.eventsAll ss) := by
    simp [Typed.funEvents]
  have hblock : lowerStmt (.block ss) s.enter = .ok ((), s₁) →
      s.enter.Performs 0 (Typed.funEvents [] ss none) 0 s₁ := by
    intro hb
    obtain ⟨s₂, hs, h⟩ := lowerStmt_block_ok hb
    cases h
    rw [he]
    exact (lowerStmts_performs ss 0 hs).enclosed
  -- only a body of exactly one statement is lowered without a block around it
  rcases ss with _ | ⟨t, _ | ⟨u, ss⟩⟩
  · exact ⟨s.enter, s₁, .inr rfl, hblock hb, hret⟩
  · refine ⟨s, s₁.leave, .inl rfl, ?_, hret⟩
    rw [he, Typed.Stmt.eventsAll, Typed.Stmt.eventsAll, List.append_nil]
    exact (lowerStmt_performs t 0 hb).enclosed
  · exact ⟨s.enter, s₁, .inr rfl, hblock hb, hret⟩

end Lowering

end PZero
