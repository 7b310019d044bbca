import PZero.Proofs.Refinement.Print

namespace PZero.Refinement

open IR Machine
open Lowering (Site lowerExpr lowerExprs lowerStmt lowerStmts lowerScoped lowerLocal)
open Semantics (Store Env Eval evalExpr execStmt execStmts leave loop)
open Typing (Scope valueBinding)

variable {p : Typed.Program} {pool : List Bytes} {image : Image} {F : Function} {s s' : Site}
  {slots : List Slot} {env : Env} {w : Store} {st : State} {call : Semantics.Call}
  {clock depth : Nat}

/-- Control has passed over code that declares nothing for what follows. -/
def Passed (p : Typed.Program) (pool : List Bytes) (image : Image) (F : Function) (s s' : Site)
    (slots : List Slot) (st : State) (env' : Env) (w' : Store) (st' : State) : Prop :=
  Stands p pool image F s' slots env' w' st' ∧
    Keeps image.globals.length s.function.nextRegister (slots.map Slot.block) st st'

/-- A statement has been executed, with its variables in blocks that were free before. -/
def Executed (p : Typed.Program) (pool : List Bytes) (image : Image) (F : Function) (s s' : Site)
    (slots : List Slot) (st : State) (Γ : Scope) (env' : Env) (w' : Store) (st' : State) : Prop :=
  ∃ new, Stands p pool image F s' (new ++ slots) env' w' st' ∧
    Keeps image.globals.length s.function.nextRegister (slots.map Slot.block) st st' ∧
    (∀ x ∈ new, st.memory.size ≤ x.block) ∧ scopeOf p (new ++ slots) = Γ

theorem Passed.executed {env' : Env} {w' : Store} {st' : State}
    (h : Passed p pool image F s s' slots st env' w' st') :
    Executed p pool image F s s' slots st (scopeOf p slots) env' w' st' :=
  ⟨[], h.1, h.2, by simp, rfl⟩

theorem Keeps.write_any {g n : Nat} {st st' : State} (h : Keeps g n [] st st')
    (blocks : List Nat) : Keeps g n blocks st st' :=
  h.mono (Nat.le_refl n) (by simp)

theorem Passed.before {t : Site} {st₁ : State} {env' : Env} {w' : Store} {st' : State}
    (h : Passed p pool image F t s' slots st₁ env' w' st')
    (hk : Keeps image.globals.length s.function.nextRegister [] st st₁)
    (hn : s.function.nextRegister ≤ t.function.nextRegister) :
    Passed p pool image F s s' slots st env' w' st' :=
  ⟨h.1, (hk.write_any _).trans h.2 hn⟩

/-- What is passed over may end with a jump. -/
theorem Passed.goto {t : Site} {target : Bytes} {next : Next}
    {outcome : EStateM.Result Semantics.Stop Store Env} (hl : Linked p pool image)
    (h : Simulates image (Carries p pool image) clock next outcome
      (Passed p pool image F s s' slots st))
    (hi : s'.function.body ++ [.br target] <+: F.body) (hw : Within F pool (t.start target))
    (hs : t.function.scopes = s'.function.scopes)
    (hn : s'.function.nextRegister ≤ t.function.nextRegister) :
    Simulates image (Carries p pool image) clock next outcome
      (Passed p pool image F s (t.start target) slots st) := by
  apply h.extend
  intro env' w' st₁ hq
  obtain ⟨h₁, hk₁⟩ := hq
  obtain ⟨st₂, hs₂, h₂, hm, -⟩ := h₁.goto hl hi hw hs (h₁.below_le hn)
  exact ⟨1, st₂, .one ⟨w', h₁.store⟩ hs₂, h₂, hk₁.trans (hm.keeps _ _ _) (Nat.le_refl _)⟩

theorem Stands.leave {new : List Slot} {env' : Env}
    (h : Stands p pool image F s (new ++ slots) env' w st)
    (hs : s.leave.function.scopes.flatten = slots.map fun x ↦ (x.name, x.address))
    (hlen : env.length = slots.length) :
    Stands p pool image F s.leave slots (leave env env') w st := by
  have hd : env'.length - env.length = new.length := by
    have := h.held.length_eq
    rw [List.length_append] at this
    omega
  refine ⟨⟨h.control.function, h.control.body, h.control.current⟩, hs, ?_, ?_, ?_, ?_, h.store⟩
  · exact fun x hx ↦ h.below x (List.mem_append_right _ hx)
  · have hdrop := List.forall₂_drop new.length h.held
    rw [List.drop_left] at hdrop
    rw [Semantics.leave, hd]
    exact hdrop
  · have hn := h.distinct
    rw [List.map_append] at hn
    exact hn.of_append_right
  · exact fun x hx ↦ h.outside x (List.mem_append_right _ hx)

theorem Stands.enter (h : Stands p pool image F s slots env w st) :
    Stands p pool image F s.enter slots env w st :=
  ⟨⟨h.control.function, h.control.body, h.control.current⟩, h.scopes, h.below, h.held, h.distinct,
    h.outside, h.store⟩

theorem Executed.leave {Γ : Scope} {env' : Env} {w' : Store} {st' : State}
    (h : Executed p pool image F s.enter s' slots st Γ env' w' st')
    (hs : s'.leave.function.scopes = s.function.scopes)
    (hst : Stands p pool image F s slots env w st) :
    Passed p pool image F s s'.leave slots st (leave env env') w' st' := by
  obtain ⟨new, hnew, hk, -, -⟩ := h
  refine ⟨hnew.leave ?_ hst.held.length_eq.symm, hk⟩
  rw [hs, hst.scopes]

theorem if_else_simulates {cond : Typed.Expr} {then_ else_ : Typed.Stmt} {c : Operand}
    {s₁ s₂ s₃ : Site} {yes no : Eval Env} (hl : Linked p pool image)
    (hc : lowerExpr cond s = .ok (c, s₁))
    (ht : lowerScoped then_ ((s₁.reserve 3).fork c (s₁.label "then" 0) (s₁.label "else" 1)
      (s₁.label "then" 0)) = .ok ((), s₂))
    (he : lowerScoped else_ (s₂.goto (s₁.label "merge" 2) (s₁.label "else" 1)) = .ok ((), s₃))
    (hw : Within F pool (s₃.goto (s₁.label "merge" 2) (s₁.label "merge" 2)))
    (ihc : Within F pool s₁ →
      Simulates image (Carries p pool image) clock (.running st) (evalExpr call env cond w)
        (Evaluated p pool image F s s₁ slots env st c .bool))
    (iht : ∀ {w' st'}, Within F pool s₂ → st'.depth = st.depth →
      Stands p pool image F ((s₁.reserve 3).fork c (s₁.label "then" 0) (s₁.label "else" 1)
        (s₁.label "then" 0)) slots env w' st' →
      Simulates image (Carries p pool image) clock (.running st') (yes w')
        (Passed p pool image F ((s₁.reserve 3).fork c (s₁.label "then" 0) (s₁.label "else" 1)
          (s₁.label "then" 0)) s₂ slots st'))
    (ihe : ∀ {w' st'}, Within F pool s₃ → st'.depth = st.depth →
      Stands p pool image F (s₂.goto (s₁.label "merge" 2) (s₁.label "else" 1)) slots env w' st' →
      Simulates image (Carries p pool image) clock (.running st') (no w')
        (Passed p pool image F (s₂.goto (s₁.label "merge" 2) (s₁.label "else" 1)) s₃ slots st')) :
    Simulates image (Carries p pool image) clock (.running st)
      ((evalExpr call env cond >>= fun c ↦ Semantics.select c yes no) w)
      (Passed p pool image F s (s₃.goto (s₁.label "merge" 2) (s₁.label "merge" 2)) slots st) := by
  obtain ⟨⟨a, ha⟩, -, -⟩ := Lowering.lowerExpr_yields cond hc
  obtain ⟨⟨b, hb⟩, hsb⟩ := Lowering.lowerScoped_adds then_ ht
  obtain ⟨⟨d, hd⟩, hsd⟩ := Lowering.lowerScoped_adds else_ he
  have hna := ha.register_le
  have hnb : s₁.function.nextRegister ≤ s₂.function.nextRegister := hb.register_le
  have hnd : s₂.function.nextRegister ≤ s₃.function.nextRegister := hd.register_le
  have hw₃ := hw.of_goto
  have hwg := hw₃.of_adds hd
  have hw₂ := hwg.of_goto
  have hwf := hw₂.of_adds hb
  refine guard_simulates hl hna hwf.fork_emit (ihc hwf.of_fork) hwf rfl (Nat.le_refl _) hwg hsb hnb
    (fun h hk ↦ ?_) (fun h hk ↦ ?_)
  · have hthen := Passed.goto hl (iht hw₂ hk.depth h) hwg.goto_emit hw hsd hnd
    exact hthen.mono fun _ _ _ hq ↦ hq.before hk hna
  · have helse := Passed.goto hl (ihe hw₃ hk.depth h) hw.goto_emit hw rfl (Nat.le_refl _)
    exact helse.mono fun _ _ _ hq ↦ hq.before hk (Nat.le_trans hna hnb)

theorem if_simulates {cond : Typed.Expr} {then_ : Typed.Stmt} {c : Operand} {s₁ s₂ : Site}
    {yes : Eval Env} (hl : Linked p pool image) (hc : lowerExpr cond s = .ok (c, s₁))
    (ht : lowerScoped then_ ((s₁.reserve 2).fork c (s₁.label "then" 0) (s₁.label "merge" 1)
      (s₁.label "then" 0)) = .ok ((), s₂))
    (hw : Within F pool (s₂.goto (s₁.label "merge" 1) (s₁.label "merge" 1)))
    (ihc : Within F pool s₁ →
      Simulates image (Carries p pool image) clock (.running st) (evalExpr call env cond w)
        (Evaluated p pool image F s s₁ slots env st c .bool))
    (iht : ∀ {w' st'}, Within F pool s₂ → st'.depth = st.depth →
      Stands p pool image F ((s₁.reserve 2).fork c (s₁.label "then" 0) (s₁.label "merge" 1)
        (s₁.label "then" 0)) slots env w' st' →
      Simulates image (Carries p pool image) clock (.running st') (yes w')
        (Passed p pool image F ((s₁.reserve 2).fork c (s₁.label "then" 0) (s₁.label "merge" 1)
          (s₁.label "then" 0)) s₂ slots st')) :
    Simulates image (Carries p pool image) clock (.running st)
      ((evalExpr call env cond >>= fun c ↦ Semantics.select c yes (pure env)) w)
      (Passed p pool image F s (s₂.goto (s₁.label "merge" 1) (s₁.label "merge" 1)) slots st) := by
  obtain ⟨⟨a, ha⟩, -, -⟩ := Lowering.lowerExpr_yields cond hc
  obtain ⟨⟨b, hb⟩, hsb⟩ := Lowering.lowerScoped_adds then_ ht
  have hna := ha.register_le
  have hnb : s₁.function.nextRegister ≤ s₂.function.nextRegister := hb.register_le
  have hw₂ := hw.of_goto
  have hwf := hw₂.of_adds hb
  refine guard_simulates hl hna hwf.fork_emit (ihc hwf.of_fork) hwf rfl (Nat.le_refl _) hw hsb hnb
    (fun h hk ↦ ?_) (fun h hk ↦ ?_)
  · have hthen := Passed.goto hl (iht hw₂ hk.depth h) hw.goto_emit hw rfl (Nat.le_refl _)
    exact hthen.mono fun _ _ _ hq ↦ hq.before hk hna
  · exact .ok ⟨h, hk.write_any _⟩

/-- The guard and the body run as often as the clock allows, from the head of the loop on. -/
theorem loop_simulates {cond : Typed.Expr} {body : Typed.Stmt} {c : Operand} {s₁ s₂ : Site}
    {level : Int} (hl : Linked p pool image)
    (hc : lowerExpr cond ((s.reserve 3).goto (s.label "while" 0) (s.label "while" 0)) =
      .ok (c, s₁))
    (hb : lowerScoped body (s₁.fork c (s.label "body" 1) (s.label "merge" 2) (s.label "body" 1)) =
      .ok ((), s₂))
    (hw : Within F pool (s₂.goto (s.label "while" 0) (s.label "merge" 2)))
    (ihc : ∀ {env w st}, Within F pool s₁ → st.depth = level →
      Stands p pool image F ((s.reserve 3).goto (s.label "while" 0) (s.label "while" 0)) slots env
        w st →
      Simulates image (Carries p pool image) clock (.running st) (evalExpr call env cond w)
        (Evaluated p pool image F ((s.reserve 3).goto (s.label "while" 0) (s.label "while" 0)) s₁
          slots env st c .bool))
    (ihb : ∀ {env w st}, Within F pool s₂ → st.depth = level →
      Stands p pool image F (s₁.fork c (s.label "body" 1) (s.label "merge" 2) (s.label "body" 1))
        slots env w st →
      Simulates image (Carries p pool image) clock (.running st) (execStmt call clock env body w)
        fun inner ↦ Passed p pool image F
          (s₁.fork c (s.label "body" 1) (s.label "merge" 2) (s.label "body" 1)) s₂ slots st
          (leave env inner)) (n : Nat) (hn : n ≤ clock) (env : Env) (w : Store) (st : State)
    (hcl : st.depth = level)
    (h : Stands p pool image F ((s.reserve 3).goto (s.label "while" 0) (s.label "while" 0)) slots
      env w st) :
    Simulates image (Carries p pool image) n (.running st)
      (loop (fun env ↦ evalExpr call env cond) (fun env ↦ execStmt call clock env body) n env w)
      (Passed p pool image F ((s.reserve 3).goto (s.label "while" 0) (s.label "while" 0))
        (s₂.goto (s.label "while" 0) (s.label "merge" 2)) slots st) := by
  obtain ⟨⟨a, ha⟩, hsa, -⟩ := Lowering.lowerExpr_yields cond hc
  obtain ⟨⟨b, hb'⟩, hsb⟩ := Lowering.lowerScoped_adds body hb
  have hna := ha.register_le
  have hnb : s₁.function.nextRegister ≤ s₂.function.nextRegister := hb'.register_le
  have hw₂ := hw.of_goto
  have hwf : Within F pool (s₁.fork c (s.label "body" 1) (s.label "merge" 2) (s.label "body" 1)) :=
    hw₂.of_adds hb'
  have hfork : s₁.function.body ++ [.condBr c (s.label "body" 1) (s.label "merge" 2)] <+: F.body :=
    (List.prefix_append _ _).trans hwf.body
  have hw₁ : Within F pool s₁ :=
    hwf.mono ((List.prefix_append _ _).trans (List.prefix_append _ _)) rfl
  have hwh := hw₁.of_adds ha
  induction n generalizing env w st with
  | zero => exact fun k hk ↦ absurd hk (Nat.not_lt_zero k)
  | succ n ih =>
    simp only [loop]
    refine guard_simulates hl hna hfork ((ihc hw₁ hcl h).clock_le hn) hwf rfl (Nat.le_refl _) hw hsb
      hnb (fun h₁ hk₁ ↦ ?_) (fun h₁ hk₁ ↦ .ok ⟨h₁, hk₁.write_any _⟩)
    have hcl₁ := hk₁.depth.trans hcl
    apply ((ihb hw₂ hcl₁ h₁).clock_le hn).bind
    intro inner w₂ st₂ hq
    obtain ⟨h₂, hk₂⟩ := hq
    obtain ⟨st₃, hs₃, h₃, hm₃, -⟩ := h₂.goto hl hw.goto_emit hwh (hsb.trans hsa).symm h.below
    have hcl₃ := hm₃.depth.trans (hk₂.depth.trans hcl₁)
    refine .step_succ ⟨w₂, h₂.store⟩ ?_
    rw [hs₃]
    apply (ih (Nat.le_of_succ_le hn) (leave env inner) w₂ st₃ hcl₃ h₃).mono
    intro env' w₃ st₄ hq
    obtain ⟨h₄, hk₄⟩ := hq
    have hk := ((hk₁.write_any _).trans hk₂ hna).trans (hm₃.keeps _ _ _) (Nat.le_refl _)
    exact ⟨h₄, hk.trans hk₄ (Nat.le_refl _)⟩

theorem lowerLocal_simulates {name : Bytes} {value : Typed.Expr} (isConst : Bool)
    (hl : Linked p pool image) (hcall : Calls p pool image call clock depth)
    (h : lowerLocal name value s = .ok ((), s')) (ht : value.WellTyped (scopeOf p slots))
    (hw : Within F pool s') (hd : st.depth + 1 = depth)
    (hs : Stands p pool image F s slots env w st) :
    Simulates image (Carries p pool image) clock (.running st)
      ((evalExpr call env value >>= fun v ↦ pure ((name, v) :: env)) w)
      (Executed p pool image F s s' slots st
        ((name, valueBinding isConst value.type) :: scopeOf p slots)) := by
  obtain ⟨x, s₁, ty, hx, hty, h⟩ := Lowering.lowerLocal_ok h
  cases h
  obtain ⟨⟨a, ha⟩, -, hb⟩ := Lowering.lowerExpr_yields value hx
  have hw₁ : Within F pool s₁ := by
    refine hw.mono ?_ ?_
    · rw [Site.slot, Site.bind_body]
      exact (List.prefix_append _ _).trans (List.prefix_append _ _)
    · rfl
  apply (lowerExpr_simulates hl hcall value hx ht hw₁ hd hs).bind
  intro v w₁ st₁ hq
  obtain ⟨h₁, hk₁, hv, tv⟩ := hq
  have hr : ∀ r, x = .reg r → r.name ≠ Bytes.ofNat s₁.function.nextRegister := by
    rintro r rfl he
    obtain ⟨k, hk, hr⟩ := hb
    have := Bytes.ofNat_inj (hr.symm.trans he)
    omega
  obtain ⟨st₂, hs₂, h₂, hk₂, -⟩ := h₁.declare hl hw (tv ▸ hty) hv hr isConst
  refine ⟨2, st₂, hs₂, [_], h₂, ?_, ?_, ?_⟩
  · exact (hk₁.trans hk₂ ha.register_le).write_any _
  · intro y hy
    rw [List.mem_singleton] at hy
    subst hy
    exact hk₁.size
  · rw [← tv]
    rfl

theorem assign_simulates {name : Bytes} {value : Typed.Expr} (hl : Linked p pool image)
    (hcall : Calls p pool image call clock depth)
    (h : lowerStmt (.assign name value) s = .ok ((), s'))
    (ht : Typed.Stmt.WellTyped (scopeOf p slots) (.assign name value)) (hw : Within F pool s')
    (hd : st.depth + 1 = depth) (hs : Stands p pool image F s slots env w st) :
    Simulates image (Carries p pool image) clock (.running st)
      (execStmt call clock env (.assign name value) w)
      (Passed p pool image F s s' slots st) := by
  obtain ⟨x, s₁, addr, hx, ha, h⟩ := Lowering.lowerStmt_assign_ok h
  cases h
  simp only [Typed.Stmt.WellTyped] at ht
  obtain ⟨⟨a, hadds⟩, -, -⟩ := Lowering.lowerExpr_yields value hx
  have hw₁ : Within F pool s₁ := hw.mono (List.prefix_append _ _) rfl
  simp only [execStmt]
  apply (lowerExpr_simulates hl hcall value hx ht.1 hw₁ hd hs).bind
  intro v w₁ st₁ hq
  obtain ⟨h₁, hk₁, hv, tv⟩ := hq
  have hb : (scopeOf p slots).lookup name = some (valueBinding false v.type) := by
    rw [ht.2, tv]
    rfl
  obtain ⟨b, old, hp, hcell, hassign⟩ := h₁.assign hl hw₁ ha hb
  obtain ⟨st₂, hs₂, hat, hr, hm, ho, hcl, hde⟩ :=
    step_store hl.unlimited h₁.control hw.body hv hp hcell
  obtain ⟨env', w₂, hres, h₂, hk₂⟩ := hassign ⟨hr, hm, ho, hcl, hde⟩ hat rfl h₁.below
  refine .step ⟨w₁, h₁.store⟩ ?_
  rw [hs₂, hres]
  exact .ok ⟨h₂, (hk₁.write_any _).trans hk₂ hadds.register_le⟩

theorem callStmt_simulates {callee : Bytes} {args : List Typed.Expr} (hl : Linked p pool image)
    (hcall : Calls p pool image call clock depth)
    (h : lowerStmt (.call callee args false) s = .ok ((), s'))
    (ht : Typed.Stmt.WellTyped (scopeOf p slots) (.call callee args false)) (hw : Within F pool s')
    (hd : st.depth + 1 = depth) (hs : Stands p pool image F s slots env w st) :
    Simulates image (Carries p pool image) clock (.running st)
      (execStmt call clock env (.call callee args false) w)
      (Passed p pool image F s s' slots st) := by
  obtain ⟨xs, s₁, hxs, h⟩ := Lowering.lowerStmt_call_ok h
  cases h
  simp only [Typed.Stmt.WellTyped] at ht
  obtain ⟨⟨a, ha⟩, -, -⟩ := Lowering.lowerExprs_yields args hxs
  have hw₁ : Within F pool s₁ := hw.mono (List.prefix_append _ _) rfl
  have hi : s₁.function.body ++ [.callVoid callee xs] <+: F.body := hw.body
  simp only [execStmt]
  apply (lowerExprs_simulates hl hcall args hxs ht.1 hw₁ hd hs).bind
  intro vs w₁ st₁ hq
  obtain ⟨h₁, hk₁, hv, tv⟩ := hq
  have hb := scopeOf_function ht.2
  rw [← tv] at hb
  have hcarry : Carries p pool image w₁ (fetch st₁) := h₁.store.congr rfl rfl
  refine .step ⟨w₁, h₁.store⟩ ?_
  rw [step_call hl.unlimited h₁.control hi hv (.inr rfl)]
  apply (hcall _ hb rfl hcarry (hk₁.depth ▸ hd)).bind
  intro r w₂ st₂ hq
  obtain ⟨hc, hr, _⟩ := hq
  have hk₂ : Keeps image.globals.length s₁.function.nextRegister [] st₁ st₂ :=
    hr.keeps fun dst hdst ↦ by cases hdst
  refine .ok ⟨h₁.keep hk₂ ?_ rfl h₁.below hc, (hk₁.trans hk₂ ha.register_le).write_any _⟩
  rw [hr.frame]
  exact h₁.control.next rfl rfl hi rfl rfl rfl

theorem printStmt_simulates {callee : Bytes} {args : List Typed.Expr} (hl : Linked p pool image)
    (hcall : Calls p pool image call clock depth)
    (h : lowerStmt (.call callee args true) s = .ok ((), s'))
    (ht : Typed.Stmt.WellTyped (scopeOf p slots) (.call callee args true)) (hw : Within F pool s')
    (hd : st.depth + 1 = depth) (hs : Stands p pool image F s slots env w st) :
    Simulates image (Carries p pool image) clock (.running st)
      (execStmt call clock env (.call callee args true) w)
      (Passed p pool image F s s' slots st) := by
  obtain ⟨s₁, ha, h⟩ := Lowering.lowerStmt_print_ok h
  cases h
  simp only [Typed.Stmt.WellTyped] at ht
  obtain ⟨⟨a, hadds⟩, -⟩ := Lowering.lowerPrints_yields args ha
  simp only [execStmt]
  by_cases hc : callee = ascii "println"
  · simp only [hc, if_true] at hw ⊢
    have hw₁ : Within F pool s₁ := hw.mono (List.prefix_append _ _) rfl
    apply (lowerPrints_simulates hl hcall args ha ht.1 hw₁ hd hs).bind
    intro _ w₁ st₁ hq
    obtain ⟨h₁, hk₁⟩ := hq
    apply (h₁.print hl hw (by decide) rfl rfl).bind
    intro _ w₂ st₂ hq
    obtain ⟨h₂, hk₂⟩ := hq
    exact .ok ⟨h₂, (hk₁.trans hk₂ hadds.register_le).write_any _⟩
  · simp only [hc, if_false] at hw ⊢
    apply (lowerPrints_simulates hl hcall args ha ht.1 hw hd hs).bind
    intro _ w₁ st₁ hq
    obtain ⟨h₁, hk₁⟩ := hq
    exact .ok ⟨h₁, hk₁.write_any _⟩

theorem scoped_simulates {body : Typed.Stmt} (h : lowerScoped body s = .ok ((), s'))
    (hw : Within F pool s') (hs : Stands p pool image F s slots env w st)
    (ih : ∀ {s₁}, lowerStmt body s.enter = .ok ((), s₁) → Within F pool s₁ →
      Stands p pool image F s.enter slots env w st →
      Simulates image (Carries p pool image) clock (.running st) (execStmt call clock env body w)
        (Executed p pool image F s.enter s₁ slots st (body.after (scopeOf p slots)))) :
    Simulates image (Carries p pool image) clock (.running st) (execStmt call clock env body w)
      fun inner ↦ Passed p pool image F s s' slots st (leave env inner) := by
  have hsc := (Lowering.lowerScoped_adds body h).2
  obtain ⟨s₁, hb, h⟩ := Lowering.lowerScoped_ok h
  cases h
  have hw₁ : Within F pool s₁ := hw.mono List.prefix_rfl rfl
  exact (ih hb hw₁ hs.enter).mono fun inner w' st' hx ↦ hx.leave hsc hs

mutual

theorem lowerStmt_simulates (hl : Linked p pool image)
    (hcall : Calls p pool image call clock depth) : ∀ (t : Typed.Stmt) {s s' : Site}
    {slots : List Slot} {env : Env} {w : Store} {st : State}, lowerStmt t s = .ok ((), s') →
      t.WellTyped (scopeOf p slots) → Within F pool s' → st.depth + 1 = depth →
      Stands p pool image F s slots env w st →
      Simulates image (Carries p pool image) clock (.running st) (execStmt call clock env t w)
        (Executed p pool image F s s' slots st (t.after (scopeOf p slots)))
  | .const name value, s, s', slots, env, w, st, h, ht, hw, hd, hs => by
    simp only [lowerStmt] at h
    simp only [Typed.Stmt.WellTyped] at ht
    simp only [execStmt]
    exact lowerLocal_simulates true hl hcall h ht hw hd hs
  | .let_ name value, s, s', slots, env, w, st, h, ht, hw, hd, hs => by
    simp only [lowerStmt] at h
    simp only [Typed.Stmt.WellTyped] at ht
    simp only [execStmt]
    exact lowerLocal_simulates false hl hcall h ht hw hd hs
  | .assign name value, s, s', slots, env, w, st, h, ht, hw, hd, hs =>
    (assign_simulates hl hcall h ht hw hd hs).mono fun _ _ _ hp ↦ hp.executed
  | .if_ cond then_ none, s, s', slots, env, w, st, h, ht, hw, hd, hs => by
    obtain ⟨c, s₁, s₂, hc, hth, h⟩ := Lowering.lowerStmt_if_ok h
    cases h
    simp only [Typed.Stmt.WellTyped] at ht
    obtain ⟨htc, hcb, htt⟩ := ht
    simp only [execStmt]
    refine (if_simulates hl hc hth hw (fun hw₁ ↦ ?_) (fun {w' st'} hw₂ hcl h₂ ↦ ?_)).mono
      fun _ _ _ hp ↦ hp.executed
    · rw [← hcb]
      exact lowerExpr_simulates hl hcall cond hc htc hw₁ hd hs
    · refine (scoped_simulates hth hw₂ h₂ fun hb hw h ↦ ?_).bind fun inner w₃ st₃ hp ↦ .ok hp
      exact lowerStmt_simulates hl hcall then_ hb htt hw (hcl ▸ hd) h
  | .if_ cond then_ (some else_), s, s', slots, env, w, st, h, ht, hw, hd, hs => by
    obtain ⟨c, s₁, s₂, s₃, hc, hth, hel, h⟩ := Lowering.lowerStmt_if_else_ok h
    cases h
    simp only [Typed.Stmt.WellTyped] at ht
    obtain ⟨htc, hcb, htt, hte⟩ := ht
    simp only [execStmt]
    refine (if_else_simulates hl hc hth hel hw (fun hw₁ ↦ ?_) (fun {w' st'} hw₂ hcl h₂ ↦ ?_)
      (fun {w' st'} hw₃ hcl h₃ ↦ ?_)).mono fun _ _ _ hp ↦ hp.executed
    · rw [← hcb]
      exact lowerExpr_simulates hl hcall cond hc htc hw₁ hd hs
    · refine (scoped_simulates hth hw₂ h₂ fun hb hw h ↦ ?_).bind fun inner w₃ st₃ hp ↦ .ok hp
      exact lowerStmt_simulates hl hcall then_ hb htt hw (hcl ▸ hd) h
    · refine (scoped_simulates hel hw₃ h₃ fun hb hw h ↦ ?_).bind fun inner w₃ st₃ hp ↦ .ok hp
      exact lowerStmt_simulates hl hcall else_ hb hte hw (hcl ▸ hd) h
  | .while_ cond body, s, s', slots, env, w, st, h, ht, hw, hd, hs => by
    obtain ⟨c, s₁, s₂, hc, hb, h⟩ := Lowering.lowerStmt_while_ok h
    cases h
    simp only [Typed.Stmt.WellTyped] at ht
    obtain ⟨htc, hcb, htb⟩ := ht
    obtain ⟨⟨a, ha⟩, -, -⟩ := Lowering.lowerExpr_yields cond hc
    obtain ⟨⟨b, hb'⟩, -⟩ := Lowering.lowerScoped_adds body hb
    have hwf : Within F pool (s₁.fork c (s.label "body" 1) (s.label "merge" 2)
        (s.label "body" 1)) :=
      hw.of_goto.of_adds hb'
    have hw₁ : Within F pool s₁ :=
      hwf.mono ((List.prefix_append _ _).trans (List.prefix_append _ _)) rfl
    have hwh := hw₁.of_adds ha
    obtain ⟨st₁, hs₁, h₁, hm, -⟩ := hs.goto hl hwh.goto_emit hwh rfl hs.below
    simp only [execStmt]
    refine .step ⟨w, hs.store⟩ ?_
    rw [hs₁]
    refine (loop_simulates hl hc hb hw (fun {env w st} hw hcl h ↦ ?_) (fun {env w st} hw hcl h ↦ ?_)
      clock (Nat.le_refl clock) env w st₁ hm.depth h₁).mono ?_
    · rw [← hcb]
      exact lowerExpr_simulates hl hcall cond hc htc hw (hcl ▸ hd) h
    · refine scoped_simulates hb hw h fun hb hw h ↦ ?_
      exact lowerStmt_simulates hl hcall body hb htb hw (hcl ▸ hd) h
    · intro env' w' st' hq
      obtain ⟨h₂, hk₂⟩ := hq
      exact Passed.executed ⟨h₂, (hm.keeps _ _ _).trans hk₂ (Nat.le_refl _)⟩
  | .block stmts, s, s', slots, env, w, st, h, ht, hw, hd, hs => by
    obtain ⟨s₁, hb, h⟩ := Lowering.lowerStmt_block_ok h
    cases h
    have hsc := (Lowering.lowerStmts_extends stmts hb).enclosed.2
    simp only [Typed.Stmt.WellTyped] at ht
    have hw₁ : Within F pool s₁ := hw.mono List.prefix_rfl rfl
    simp only [execStmt]
    refine (lowerStmts_simulates hl hcall stmts hb ht hw₁ hd hs.enter).bind
      fun inner w₁ st₁ hx ↦ .ok (Passed.executed (hx.leave hsc hs))
  | .call callee args true, s, s', slots, env, w, st, h, ht, hw, hd, hs =>
    (printStmt_simulates hl hcall h ht hw hd hs).mono fun _ _ _ hp ↦ hp.executed
  | .call callee args false, s, s', slots, env, w, st, h, ht, hw, hd, hs =>
    (callStmt_simulates hl hcall h ht hw hd hs).mono fun _ _ _ hp ↦ hp.executed
  | .empty, s, s', slots, env, w, st, h, ht, hw, hd, hs => by
    simp only [lowerStmt, Lowering.Lower.pure_ok, Prod.mk.injEq, true_and] at h
    subst h
    simp only [execStmt]
    exact .ok (Passed.executed ⟨hs, Keeps.refl _ _ _ _⟩)
  | .missing, s, s', slots, env, w, st, h, ht, hw, hd, hs => by simp [Typed.Stmt.WellTyped] at ht

theorem lowerStmts_simulates (hl : Linked p pool image)
    (hcall : Calls p pool image call clock depth) : ∀ (ts : List Typed.Stmt) {s s' : Site}
    {slots : List Slot} {env : Env} {w : Store} {st : State}, lowerStmts ts s = .ok ((), s') →
      Typed.Stmt.AllWellTyped (scopeOf p slots) ts → Within F pool s' →
      st.depth + 1 = depth → Stands p pool image F s slots env w st →
      Simulates image (Carries p pool image) clock (.running st) (execStmts call clock env ts w)
        (Executed p pool image F s s' slots st (Typed.Stmt.afterAll (scopeOf p slots) ts))
  | [], s, s', slots, env, w, st, h, ht, hw, hd, hs => by
    simp only [lowerStmts, Lowering.Lower.pure_ok, Prod.mk.injEq, true_and] at h
    subst h
    simp only [execStmts]
    exact .ok (Passed.executed ⟨hs, Keeps.refl _ _ _ _⟩)
  | t :: ts, s, s', slots, env, w, st, h, ht, hw, hd, hs => by
    simp only [lowerStmts, Lowering.Lower.bind_ok] at h
    obtain ⟨_, s₁, ht₁, hts⟩ := h
    simp only [Typed.Stmt.AllWellTyped] at ht
    obtain ⟨a, ha⟩ := (Lowering.lowerStmt_extends t ht₁).adds
    obtain ⟨b, hb⟩ := (Lowering.lowerStmts_extends ts hts).adds
    simp only [execStmts]
    apply (lowerStmt_simulates hl hcall t ht₁ ht.1 (hw.of_adds hb) hd hs).bind
    intro env₁ w₁ st₁ hq
    obtain ⟨new, h₁, hk₁, hf₁, hΓ⟩ := hq
    apply (lowerStmts_simulates hl hcall ts hts (hΓ ▸ ht.2) hw (hk₁.depth ▸ hd) h₁).mono
    intro env₂ w₂ st₂ hq
    obtain ⟨new₂, h₂, hk₂, hf₂, hΓ₂⟩ := hq
    rw [← List.append_assoc] at h₂ hΓ₂
    refine ⟨new₂ ++ new, h₂, ?_, ?_, ?_⟩
    · rw [List.map_append] at hk₂
      refine hk₁.trans_new hk₂ ha.register_le fun b hb ↦ ?_
      obtain ⟨x, hx, rfl⟩ := List.mem_map.1 hb
      exact hf₁ x hx
    · intro x hx
      rcases List.mem_append.1 hx with hx | hx
      · exact Nat.le_trans hk₁.size (hf₂ x hx)
      · exact hf₁ x hx
    · rw [hΓ₂, hΓ]
      rfl

end

end PZero.Refinement
