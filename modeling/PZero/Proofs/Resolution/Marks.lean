import PZero.Proofs.Resolution.Events

namespace PZero

open Typing

/-- A declaration: one of the top level, or the one with a number in its function. The parameters
come first, and the others in the order of the text. -/
inductive Referent
  | global (name : Bytes)
  | local_ (number : Nat)
  deriving Repr, DecidableEq

/-- What is done with a variable: it gets a place of its own, it is read, or it is written. -/
inductive Access (α : Type)
  | slot (x : α)
  | load (x : α)
  | store (x : α)
  deriving Repr, DecidableEq

def Access.map {α β : Type} (f : α → β) : Access α → Access β
  | .slot x => .slot (f x)
  | .load x => .load (f x)
  | .store x => .store (f x)

/-- What a name is bound to, and where it was declared. -/
abbrev Marked := Bytes × Binding × Referent

/-- The open scopes with their marks, and the number of the next declaration. -/
structure Marks where
  scopes : List (List Marked)
  next : Nat
  deriving Repr

namespace Marks

def unmarked (entry : Marked) : Bytes × Binding := (entry.1, entry.2.1)

def plain (m : Marks) : Scopes := m.scopes.map (List.map unmarked)

def lookup (m : Marks) (name : Bytes) : Option (Binding × Referent) :=
  m.scopes.findSome? (List.lookup name)

/-- The declaration that a name refers to. -/
def referent? (m : Marks) (name : Bytes) : Option Referent := (m.lookup name).map Prod.snd

def declare (m : Marks) (name : Bytes) (binding : Binding) : Marks :=
  let entry : Marked := (name, binding, .local_ m.next)
  match m.scopes with
  | [] => ⟨[[entry]], m.next + 1⟩
  | scope :: outer => ⟨(entry :: scope) :: outer, m.next + 1⟩

def step (m : Marks) : ScopeEvent → Marks
  | .enter => { m with scopes := [] :: m.scopes }
  | .leave => { m with scopes := m.scopes.tail }
  | .declares name binding => m.declare name binding
  | .reads _ | .assigns _ => m

def run (m : Marks) (events : List ScopeEvent) : Marks := events.foldl step m

def access (m : Marks) : ScopeEvent → List (Access (Option Referent))
  | .declares _ _ => [.slot (some (.local_ m.next)), .store (some (.local_ m.next))]
  | .reads name => [.load (m.referent? name)]
  | .assigns name => [.store (m.referent? name)]
  | .enter | .leave => []

def accesses (m : Marks) : List ScopeEvent → List (Access (Option Referent))
  | [] => []
  | e :: es => m.access e ++ (m.step e).accesses es

variable (m : Marks)

theorem declare_cons (name : Bytes) (binding : Binding) {scope : List Marked}
    {outer : List (List Marked)} (h : m.scopes = scope :: outer) :
    m.declare name binding =
      ⟨((name, binding, .local_ m.next) :: scope) :: outer, m.next + 1⟩ := by
  simp only [declare, h]

theorem run_append (es es' : List ScopeEvent) : m.run (es ++ es') = (m.run es).run es' :=
  List.foldl_append

theorem accesses_append (es es' : List ScopeEvent) :
    m.accesses (es ++ es') = m.accesses es ++ (m.run es).accesses es' := by
  induction es generalizing m with
  | nil => rfl
  | cons e es ih =>
    rw [List.cons_append, accesses, ih, accesses, List.append_assoc]
    rfl

@[simp] theorem run_reads (names : List Bytes) : m.run (names.map .reads) = m := by
  induction names with
  | nil => rfl
  | cons name names ih => exact ih

theorem lookup_unmarked (scope : List Marked) (name : Bytes) :
    (scope.map unmarked).lookup name = (scope.lookup name).map Prod.fst := by
  induction scope with
  | nil => rfl
  | cons entry scope ih =>
    obtain ⟨other, binding, referent⟩ := entry
    simp only [List.map_cons, unmarked, List.lookup_cons, ih]
    split <;> rfl

/-- The checker's lookup finds the entry that the mark is read from. -/
theorem plain_lookup (name : Bytes) : m.plain.lookup name = (m.lookup name).map Prod.fst := by
  obtain ⟨scopes, next⟩ := m
  simp only [Scopes.lookup, lookup, plain]
  induction scopes with
  | nil => rfl
  | cons scope outer ih =>
    rw [List.map_cons, List.findSome?_cons, List.findSome?_cons, lookup_unmarked]
    cases scope.lookup name with
    | none => exact ih
    | some found => rfl

theorem plain_enter : (m.step .enter).plain = m.plain.enter := rfl

theorem plain_declare {scopes' : Scopes} {name : Surface.Ident} {binding : Binding}
    (h : m.plain.declare name binding = (scopes', [])) :
    (m.declare name.name binding).plain = scopes' := by
  obtain ⟨scopes, next⟩ := m
  cases scopes with
  | nil =>
    cases h
    rfl
  | cons scope outer =>
    obtain ⟨-, rfl⟩ := declare_iff.1 h
    rfl

end Marks

namespace Typing

theorem checkStmt_outer {s : Surface.Stmt} {scope : Scope} {outer scopes' : Scopes}
    {t : Typed.Stmt} {findings : List Finding}
    (h : checkStmt (scope :: outer) s = (t, scopes', findings)) :
    ∃ scope', scopes' = scope' :: outer := by
  have hd : ∀ (name : Surface.Ident) (binding : Binding),
      ∃ scope', (Scopes.declare (scope :: outer) name binding).1 = scope' :: outer := by
    intro name binding
    unfold Scopes.declare
    simp only
    split
    · exact ⟨scope, rfl⟩
    · exact ⟨_, rfl⟩
  have hs : scopes' = (checkStmt (scope :: outer) s).2.1 := by rw [h]
  rw [hs]
  cases s with
  | decl isConst name value span => cases isConst <;> exact hd _ _
  | if_ cond then_ else_ span => cases else_ <;> exact ⟨scope, rfl⟩
  | _ => exact ⟨scope, rfl⟩

theorem checkStmts_outer {ss : List Surface.Stmt} {scope : Scope} {outer scopes' : Scopes}
    {ts : List Typed.Stmt} {findings : List Finding}
    (h : checkStmts (scope :: outer) ss = (ts, scopes', findings)) :
    ∃ scope', scopes' = scope' :: outer := by
  induction ss generalizing scope ts findings with
  | nil =>
    simp only [checkStmts, Prod.mk.injEq] at h
    exact ⟨scope, h.2.1.symm⟩
  | cons s ss ih =>
    rcases e : checkStmt (scope :: outer) s with ⟨t, inner, tf⟩
    rcases es : checkStmts inner ss with ⟨us, inner', usf⟩
    simp only [checkStmts, e, es, Prod.mk.injEq] at h
    obtain ⟨-, rfl, -⟩ := h
    obtain ⟨scope', rfl⟩ := checkStmt_outer e
    exact ih es

end Typing

namespace Marks

variable {m : Marks} {scopes' : Scopes}

theorem plain_run_enclosed {es : List ScopeEvent} (h : ((m.step .enter).run es).plain = scopes')
    (ho : ∃ scope, scopes' = scope :: m.plain) :
    (m.run (ScopeEvent.enclosed es)).plain = m.plain := by
  obtain ⟨scope, rfl⟩ := ho
  have hr : m.run (ScopeEvent.enclosed es) = ((m.step .enter).run es).step .leave := by
    rw [ScopeEvent.enclosed, ← List.cons_append, run_append]
    rfl
  rw [hr]
  change ((m.step .enter).run es).scopes.tail.map _ = _
  rw [List.map_tail]
  exact congrArg List.tail h

mutual

theorem plain_run_stmt : ∀ (s : Surface.Stmt) (m : Marks) {scopes' : Scopes} {t : Typed.Stmt},
    checkStmt m.plain s = (t, scopes', []) → (m.run (s.events m.plain)).plain = scopes'
  | .decl isConst name value _, m, scopes', t, h => by
    obtain ⟨x, hx, hd, -⟩ := checkStmt_decl_ok h
    rw [Surface.Stmt.events, hx, run_append, Surface.Expr.events, run_reads]
    exact m.plain_declare hd
  | .assign name value _, m, scopes', t, h => by
    simp only [checkStmt, Prod.mk.injEq] at h
    obtain ⟨-, rfl, -⟩ := h
    rw [Surface.Stmt.events, run_append, Surface.Expr.events, run_reads]
    rfl
  | .if_ cond then_ none _, m, scopes', t, h => by
    rcases et : checkStmt m.plain.enter then_ with ⟨u, inner, uf⟩
    simp only [checkStmt, et, Prod.mk.injEq, List.append_eq_nil_iff] at h
    obtain ⟨-, rfl, -, rfl⟩ := h
    rw [Surface.Stmt.events, run_append, Surface.Expr.events, run_reads]
    exact plain_run_enclosed (plain_run_stmt then_ (m.step .enter) et) (checkStmt_outer et)
  | .if_ cond then_ (some else_) _, m, scopes', t, h => by
    rcases et : checkStmt m.plain.enter then_ with ⟨u, inner, uf⟩
    rcases ee : checkStmt m.plain.enter else_ with ⟨v, inner', vf⟩
    simp only [checkStmt, et, ee, Prod.mk.injEq, List.append_eq_nil_iff] at h
    obtain ⟨-, rfl, ⟨-, rfl⟩, rfl⟩ := h
    rw [Surface.Stmt.events, run_append, Surface.Expr.events, run_reads, run_append]
    have ht := plain_run_enclosed (plain_run_stmt then_ (m.step .enter) et) (checkStmt_outer et)
    have ht' : m.plain = (m.run (ScopeEvent.enclosed (then_.events m.plain.enter))).plain := ht.symm
    rw [ht'] at ee
    have he := plain_run_enclosed (plain_run_stmt else_ (Marks.step _ .enter) ee)
      (checkStmt_outer ee)
    rw [Marks.plain_enter, ← ht'] at he
    exact he
  | .while_ cond body _, m, scopes', t, h => by
    rcases eb : checkStmt m.plain.enter body with ⟨u, inner, uf⟩
    simp only [checkStmt, eb, Prod.mk.injEq, List.append_eq_nil_iff] at h
    obtain ⟨-, rfl, -, rfl⟩ := h
    rw [Surface.Stmt.events, run_append, Surface.Expr.events, run_reads]
    exact plain_run_enclosed (plain_run_stmt body (m.step .enter) eb) (checkStmt_outer eb)
  | .block stmts _, m, scopes', t, h => by
    rcases eb : checkStmts m.plain.enter stmts with ⟨us, inner, uf⟩
    simp only [checkStmt, eb, Prod.mk.injEq] at h
    obtain ⟨-, rfl, rfl⟩ := h
    rw [Surface.Stmt.events]
    exact plain_run_enclosed (plain_run_stmts stmts (m.step .enter) eb) (checkStmts_outer eb)
  | .call callee args _, m, scopes', t, h => by
    simp only [checkStmt, Prod.mk.injEq] at h
    obtain ⟨-, rfl, -⟩ := h
    rw [Surface.Stmt.events, run_reads]
  | .empty _, m, scopes', t, h => by
    simp only [checkStmt, Prod.mk.injEq] at h
    obtain ⟨-, rfl, -⟩ := h
    rfl

theorem plain_run_stmts : ∀ (ss : List Surface.Stmt) (m : Marks) {scopes' : Scopes}
    {ts : List Typed.Stmt}, checkStmts m.plain ss = (ts, scopes', []) →
    (m.run (Surface.Stmt.eventsAll m.plain ss)).plain = scopes'
  | [], m, scopes', ts, h => by
    simp only [checkStmts, Prod.mk.injEq] at h
    obtain ⟨-, rfl, -⟩ := h
    rfl
  | s :: ss, m, scopes', ts, h => by
    rcases e : checkStmt m.plain s with ⟨u, inner, uf⟩
    rcases es : checkStmts inner ss with ⟨us, inner', usf⟩
    simp only [checkStmts, e, es, Prod.mk.injEq, List.append_eq_nil_iff] at h
    obtain ⟨-, rfl, rfl, rfl⟩ := h
    have hs := plain_run_stmt s m e
    rw [Surface.Stmt.eventsAll, run_append, e]
    rw [← hs] at es ⊢
    exact plain_run_stmts ss _ es

end

theorem plain_run_params (params : List Surface.Param) (m : Marks) {scopes' : Scopes}
    (h : declareParams m.plain params = (scopes', [])) :
    (m.run (params.map Surface.Param.event)).plain = scopes' := by
  induction params generalizing m with
  | nil =>
    cases h
    rfl
  | cons p ps ih =>
    rcases ed : m.plain.declare p.name (.variable (valueType p.type.name)) with ⟨inner, df⟩
    rcases ep : declareParams inner ps with ⟨inner', pf⟩
    simp only [declareParams, ed, ep, Prod.mk.injEq, List.append_eq_nil_iff] at h
    obtain ⟨rfl, rfl, rfl⟩ := h
    have hd := m.plain_declare ed
    rw [← hd] at ep
    exact ih _ ep

end Marks

end PZero
