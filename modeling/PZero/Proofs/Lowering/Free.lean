import PZero.Proofs.Lowering.Growth
import PZero.Proofs.Typing.Declarations

namespace PZero.Typed

open Typing (Scope valueBinding)

def freeName (locals : List Bytes) (name : Bytes) : List Bytes :=
  if name ∈ locals then [] else [name]

mutual

def Expr.free (locals : List Bytes) : Expr → List Bytes
  | .conditional cond then_ else_ =>
    cond.free locals ++ (then_.free locals ++ else_.free locals)
  | .binary _ left right => left.free locals ++ right.free locals
  | .unary _ operand | .unaryUnknown operand => operand.free locals
  | .call _ _ args => Expr.freeAll locals args
  | .ident _ name => freeName locals name
  | .literal _ | .missing => []

def Expr.freeAll (locals : List Bytes) : List Expr → List Bytes
  | [] => []
  | e :: es => e.free locals ++ Expr.freeAll locals es

end

mutual

def Stmt.free (locals : List Bytes) : Stmt → List Bytes
  | .assign name value => value.free locals ++ freeName locals name
  | .const _ value | .let_ _ value => value.free locals
  | .if_ cond then_ none => cond.free locals ++ then_.free locals
  | .if_ cond then_ (some else_) =>
    cond.free locals ++ (then_.free locals ++ else_.free locals)
  | .while_ cond body => cond.free locals ++ body.free locals
  | .block stmts => Stmt.freeAll locals stmts
  | .call _ args _ => Expr.freeAll locals args
  | .empty | .missing => []

def Stmt.freeAll (locals : List Bytes) : List Stmt → List Bytes
  | [] => []
  | s :: ss => s.free locals ++ Stmt.freeAll (Lowering.declared s ++ locals) ss

end

/-- The top-level variables that a function uses. -/
def Decl.free : Decl → List Bytes
  | .fun_ _ params body result =>
    let locals := (params.map Param.name).reverse
    Stmt.freeAll locals body ++
      match result with
      | some r => r.value.free (Lowering.declaredAll body ++ locals)
      | none => []
  | _ => []

def Hides (locals : List Bytes) (Γ Γ₀ : Scope) : Prop :=
  ∀ x, x ∉ locals → Γ.lookup x = Γ₀.lookup x

theorem Hides.cons {locals : List Bytes} {Γ Γ₀ : Scope} (h : Hides locals Γ Γ₀) (name : Bytes)
    (binding : Typing.Binding) : Hides (name :: locals) ((name, binding) :: Γ) Γ₀ := by
  intro x hx
  simp only [List.mem_cons, not_or] at hx
  have hb : (x == name) = false := beq_eq_false_iff_ne.2 hx.1
  rw [List.lookup_cons, hb]
  exact h x hx.2

theorem Hides.after {locals : List Bytes} {Γ Γ₀ : Scope} (h : Hides locals Γ Γ₀) (s : Stmt) :
    Hides (Lowering.declared s ++ locals) (s.after Γ) Γ₀ := by
  cases s with
  | const name value | let_ name value => exact h.cons name _
  | _ => exact h

theorem Hides.afterAll {locals : List Bytes} {Γ Γ₀ : Scope} (h : Hides locals Γ Γ₀)
    (ss : List Stmt) : Hides (Lowering.declaredAll ss ++ locals) (Stmt.afterAll Γ ss) Γ₀ := by
  induction ss generalizing locals Γ with
  | nil => exact h
  | cons s ss ih =>
    rw [Lowering.declaredAll, List.append_assoc]
    exact ih (h.after s)

theorem hides_params (params : List Param) (Γ₀ : Scope) :
    Hides (params.map Param.name).reverse (paramScope params ++ Γ₀) Γ₀ := by
  intro x hx
  have hl : (paramScope params).lookup x = none := by
    rw [Typing.lookup_eq_none, paramScope, List.map_reverse, List.map_map]
    exact hx
  rw [List.lookup_append, hl, Option.none_or]

def Holds (Γ : Scope) (x : Bytes) : Prop :=
  ∃ isConst type, Γ.lookup x = some (valueBinding isConst type)

variable {locals : List Bytes} {Γ Γ₀ : Scope} {x : Bytes}

theorem holds_of_freeName {name : Bytes} (hh : Hides locals Γ Γ₀) (hn : Holds Γ name)
    (hx : x ∈ freeName locals name) : Holds Γ₀ x := by
  unfold freeName at hx
  split at hx
  · cases hx
  · rename_i hl
    rw [List.mem_singleton] at hx
    subst hx
    obtain ⟨c, t, hb⟩ := hn
    exact ⟨c, t, (hh x hl).symm.trans hb⟩

mutual

theorem Expr.holds_of_free (hh : Hides locals Γ Γ₀) : ∀ e : Expr, e.WellTyped Γ →
    x ∈ e.free locals → Holds Γ₀ x
  | .conditional cond then_ else_, ⟨hc, ht, he, _⟩, hx => by
    rw [Expr.free, List.mem_append, List.mem_append] at hx
    rcases hx with hx | hx | hx
    · exact Expr.holds_of_free hh cond hc hx
    · exact Expr.holds_of_free hh then_ ht hx
    · exact Expr.holds_of_free hh else_ he hx
  | .binary op left right, ⟨hl, hr, _⟩, hx => by
    rw [Expr.free, List.mem_append] at hx
    rcases hx with hx | hx
    · exact Expr.holds_of_free hh left hl hx
    · exact Expr.holds_of_free hh right hr hx
  | .unary op operand, ⟨ho, _⟩, hx => by
    rw [Expr.free] at hx
    exact Expr.holds_of_free hh operand ho hx
  | .call type callee args, ⟨ha, _⟩, hx => by
    rw [Expr.free] at hx
    exact Expr.holds_of_freeAll hh args ha hx
  | .ident type name, ⟨_, hn⟩, hx => by
    rw [Expr.free] at hx
    refine holds_of_freeName hh ?_ hx
    rcases hn with hn | hn
    · exact ⟨true, type, hn⟩
    · exact ⟨false, type, hn⟩
  | .literal value, _, hx => by
    rw [Expr.free] at hx
    cases hx

theorem Expr.holds_of_freeAll (hh : Hides locals Γ Γ₀) : ∀ es : List Expr,
    Expr.AllWellTyped Γ es → x ∈ Expr.freeAll locals es → Holds Γ₀ x
  | [], _, hx => by
    rw [Expr.freeAll] at hx
    cases hx
  | e :: es, ⟨he, hes⟩, hx => by
    rw [Expr.freeAll, List.mem_append] at hx
    rcases hx with hx | hx
    · exact Expr.holds_of_free hh e he hx
    · exact Expr.holds_of_freeAll hh es hes hx

end

theorem Expr.holds_of_printed (hh : Hides locals Γ Γ₀) {es : List Expr}
    (h : ∀ e ∈ es, e.Printable Γ) (hx : x ∈ Expr.freeAll locals es) : Holds Γ₀ x := by
  induction es with
  | nil =>
    rw [Expr.freeAll] at hx
    cases hx
  | cons e es ih =>
    obtain ⟨he, hes⟩ := List.forall_mem_cons.1 h
    rw [Expr.freeAll, List.mem_append] at hx
    rcases hx with hx | hx
    · rcases he with he | ⟨text, rfl⟩
      · exact Expr.holds_of_free hh e he hx
      · rw [Expr.free] at hx
        cases hx
    · exact ih hes hx

mutual

theorem Stmt.holds_of_free : ∀ (s : Stmt) {locals : List Bytes} {Γ : Scope},
    Hides locals Γ Γ₀ → s.WellTyped Γ → x ∈ s.free locals → Holds Γ₀ x
  | .assign name value, locals, Γ, hh, ⟨hv, hn⟩, hx => by
    rw [Stmt.free, List.mem_append] at hx
    rcases hx with hx | hx
    · exact Expr.holds_of_free hh value hv hx
    · exact holds_of_freeName hh ⟨false, _, hn⟩ hx
  | .const name value, locals, Γ, hh, hv, hx => by
    rw [Stmt.free] at hx
    exact Expr.holds_of_free hh value hv hx
  | .let_ name value, locals, Γ, hh, hv, hx => by
    rw [Stmt.free] at hx
    exact Expr.holds_of_free hh value hv hx
  | .if_ cond then_ none, locals, Γ, hh, ⟨hc, _, ht⟩, hx => by
    rw [Stmt.free, List.mem_append] at hx
    rcases hx with hx | hx
    · exact Expr.holds_of_free hh cond hc hx
    · exact Stmt.holds_of_free then_ hh ht hx
  | .if_ cond then_ (some else_), locals, Γ, hh, ⟨hc, _, ht, he⟩, hx => by
    rw [Stmt.free, List.mem_append, List.mem_append] at hx
    rcases hx with hx | hx | hx
    · exact Expr.holds_of_free hh cond hc hx
    · exact Stmt.holds_of_free then_ hh ht hx
    · exact Stmt.holds_of_free else_ hh he hx
  | .while_ cond body, locals, Γ, hh, ⟨hc, _, hb⟩, hx => by
    rw [Stmt.free, List.mem_append] at hx
    rcases hx with hx | hx
    · exact Expr.holds_of_free hh cond hc hx
    · exact Stmt.holds_of_free body hh hb hx
  | .block stmts, locals, Γ, hh, hs, hx => by
    rw [Stmt.free] at hx
    exact Stmt.holds_of_freeAll stmts hh hs hx
  | .call callee args true, locals, Γ, hh, ⟨ha, _⟩, hx => by
    rw [Stmt.free] at hx
    exact Expr.holds_of_printed hh ha hx
  | .call callee args false, locals, Γ, hh, ⟨ha, _⟩, hx => by
    rw [Stmt.free] at hx
    exact Expr.holds_of_freeAll hh args ha hx
  | .empty, locals, Γ, hh, _, hx => by
    rw [Stmt.free] at hx
    cases hx

theorem Stmt.holds_of_freeAll : ∀ (ss : List Stmt) {locals : List Bytes} {Γ : Scope},
    Hides locals Γ Γ₀ → Stmt.AllWellTyped Γ ss → x ∈ Stmt.freeAll locals ss → Holds Γ₀ x
  | [], locals, Γ, hh, _, hx => by
    rw [Stmt.freeAll] at hx
    cases hx
  | s :: ss, locals, Γ, hh, ⟨hs, hss⟩, hx => by
    rw [Stmt.freeAll, List.mem_append] at hx
    rcases hx with hx | hx
    · exact Stmt.holds_of_free s hh hs hx
    · exact Stmt.holds_of_freeAll ss (hh.after s) hss hx

end

theorem Decl.holds_of_free {d : Decl} (hd : d.WellTyped Γ₀) (hx : x ∈ d.free) : Holds Γ₀ x := by
  cases d with
  | fun_ name params body result =>
    obtain ⟨-, -, hb, hr⟩ := hd
    have hh := hides_params params Γ₀
    simp only [Decl.free, List.mem_append] at hx
    rcases hx with hx | hx
    · exact Stmt.holds_of_freeAll body hh hb hx
    · cases result with
      | none => cases hx
      | some r => exact Expr.holds_of_free (hh.afterAll body) r.value (hr r rfl).1 hx
  | const | var | missing => cases hx

end PZero.Typed
