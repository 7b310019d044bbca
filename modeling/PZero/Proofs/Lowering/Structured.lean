import PZero.Proofs.IR.Dominance

namespace PZero.IR.Instr

theorem isLabel_of_result? {i : Instr} {r : Register} (h : i.result? = some r) :
    i.isLabel = false := by
  cases i <;> first | rfl | cases h

theorem isTerminator_of_result? {i : Instr} {r : Register} (h : i.result? = some r) :
    i.isTerminator = false := by
  cases i <;> first | rfl | cases h

end PZero.IR.Instr

namespace PZero.Lowering

open IR Lower

def Site.point (s : Site) (known : List Register) : Point :=
  ⟨s.function.current, known, s.function.nextRegister⟩

/-- Every name in scope stands for something known. -/
def ScopesKnown (s : Site) (known : List Register) : Prop :=
  ∀ x ∈ s.function.scopes.flatten, x.2.KnownIn known

theorem ScopesKnown.mono {s s' : Site} {known known' : List Register} (h : ScopesKnown s known)
    (hs : s'.function.scopes = s.function.scopes) (hk : known ⊆ known') :
    ScopesKnown s' known' := by
  intro x hx
  rw [hs] at hx
  exact (h x hx).mono hk

theorem ScopesKnown.enter {s : Site} {known : List Register} (h : ScopesKnown s known) :
    ScopesKnown s.enter known := h

/-- Structured code was written between two sites. -/
def Written (s s' : Site) (known known' : List Register) : Prop :=
  ∃ steps, s'.function.body = s.function.body ++ code steps ∧
    Structured (s.point known) steps (s'.point known')

def Defines (make : Register → Instr) (operands : List Operand) : Prop :=
  ∀ r, (make r).result? = some r ∧ (make r).isPhi = false ∧ (make r).operands = operands

theorem numbered_label (stem : String) (n : Nat) (s : Site) : Numbered (s.label stem n) :=
  ⟨ascii stem, s.function.nextLabel + n, by simp [Site.label, ascii]⟩

theorem body_goto (s : Site) (target next : Bytes) :
    (s.goto target next).function.body = s.function.body ++ [.br target, .label next] :=
  List.append_assoc _ _ _

theorem body_fork (s : Site) (c : Operand) (yes no next : Bytes) :
    (s.fork c yes no next).function.body =
      s.function.body ++ [.condBr c yes no, .label next] :=
  List.append_assoc _ _ _

theorem body_define (s : Site) (type : Ty) (make : Register → Instr) :
    (s.define type make).function.body = s.function.body ++ [make (s.next type)] := rfl

namespace Written

variable {s s₁ s₂ : Site} {known k₁ k₂ : List Register}

theorem refl (s : Site) (known : List Register) : Written s s known known :=
  ⟨[], by simp, .nil _⟩

theorem known_subset (h : Written s s₁ known k₁) : known ⊆ k₁ := by
  obtain ⟨steps, -, hs⟩ := h
  exact hs.known_subset

theorem trans (h : Written s s₁ known k₁) (h' : Written s₁ s₂ k₁ k₂) : Written s s₂ known k₂ := by
  obtain ⟨a, ha, hsa⟩ := h
  obtain ⟨b, hb, hsb⟩ := h'
  refine ⟨a ++ b, ?_, hsa.seq hsb⟩
  rw [hb, ha, code_append, List.append_assoc]

theorem congr (h : Written s s₁ known k₁) (hb : s₂.function.body = s₁.function.body)
    (hc : s₂.function.current = s₁.function.current)
    (hn : s₂.function.nextRegister = s₁.function.nextRegister) : Written s s₂ known k₁ := by
  obtain ⟨steps, hbody, hs⟩ := h
  have hp : s₂.point k₁ = s₁.point k₁ := by rw [Site.point, Site.point, hc, hn]
  exact ⟨steps, hb.trans hbody, hp ▸ hs⟩

theorem enter (s : Site) (known : List Register) : Written s s.enter known known :=
  (refl s known).congr rfl rfl rfl

theorem define (h : Written s s₁ known k₁) (type : Ty) {make : Register → Instr}
    {operands : List Operand} (hm : Defines make operands)
    (hx : ∀ x ∈ operands, x.KnownIn k₁) :
    Written s (s₁.define type make) known (s₁.next type :: k₁) := by
  obtain ⟨hres, hphi, hops⟩ := hm (s₁.next type)
  refine h.trans ⟨[⟨make (s₁.next type), s₁.point k₁⟩], rfl, ?_⟩
  have hplain : Plain (s₁.point k₁) (make (s₁.next type)) := by
    refine ⟨Instr.isLabel_of_result? hres, Instr.isTerminator_of_result? hres, hphi, ?_, ?_⟩
    · intro r hr
      rw [hres] at hr
      cases hr
      rfl
    · rwa [hops]
  have hafter : (s₁.point k₁).after (make (s₁.next type)) =
      (s₁.define type make).point (s₁.next type :: k₁) := by
    rw [Point.after, hres]
    rfl
  exact hafter ▸ .plain hplain

theorem emit (h : Written s s₁ known k₁) {i : Instr} (hl : i.isLabel = false)
    (ht : i.isTerminator = false) (hr : i.result? = none)
    (hx : ∀ x ∈ i.operands, x.KnownIn k₁) : Written s (s₁.emit i) known k₁ := by
  have hphi : i.isPhi = false := by
    cases i <;> first | rfl | cases hr
  have hplain : Plain (s₁.point k₁) i := by
    refine ⟨hl, ht, hphi, fun r h ↦ ?_, hx⟩
    rw [hr] at h
    cases h
  have hafter : (s₁.point k₁).after i = (s₁.emit i).point k₁ := by
    rw [Point.after, hr]
    rfl
  have hs := Structured.plain hplain
  rw [hafter] at hs
  exact h.trans ⟨_, rfl, hs⟩

theorem guarded {c : Operand} {yes merge : Bytes} {n : Nat} (hc : c.KnownIn known)
    (hyes : Numbered yes) (hmerge : Numbered merge)
    (h : Written ((s.reserve n).fork c yes merge yes) s₁ known k₁) :
    Written s (s₁.goto merge merge) known known := by
  obtain ⟨a, ha, hs⟩ := h
  refine ⟨_, ?_, .guarded (p := s.point known) hc hyes hmerge hs⟩
  rw [body_goto, ha, body_fork]
  simp only [code_append, List.append_assoc]
  rfl

theorem choice {c : Operand} {yes no merge : Bytes} {n : Nat} (hc : c.KnownIn known)
    (hyes : Numbered yes) (hno : Numbered no) (hmerge : Numbered merge)
    (h : Written ((s.reserve n).fork c yes no yes) s₁ known k₁)
    (h' : Written (s₁.goto merge no) s₂ known k₂) :
    Written s (s₂.goto merge merge) known known := by
  obtain ⟨a, ha, hsa⟩ := h
  obtain ⟨b, hb, hsb⟩ := h'
  refine ⟨_, ?_, .choice (p := s.point known) hc hyes hno hmerge hsa hsb⟩
  rw [body_goto, hb, body_goto, ha, body_fork]
  simp only [Point.arms, code_append, List.append_assoc]
  rfl

theorem select {c x y : Operand} {type : Ty} {yes no merge : Bytes} {n : Nat}
    (hc : c.KnownIn known) (hyes : Numbered yes) (hno : Numbered no) (hmerge : Numbered merge)
    (h : Written ((s.reserve n).fork c yes no yes) s₁ known k₁)
    (h' : Written (s₁.goto merge no) s₂ known k₂) (hx : x.KnownIn k₁) (hy : y.KnownIn k₂) :
    Written s ((s₂.goto merge merge).define type
        (.phi · [⟨x, s₁.function.current⟩, ⟨y, s₂.function.current⟩])) known
      (s₂.next type :: known) := by
  obtain ⟨a, ha, hsa⟩ := h
  obtain ⟨b, hb, hsb⟩ := h'
  refine ⟨_, ?_, .select (p := s.point known) hc hyes hno hmerge hsa hsb hx hy rfl⟩
  rw [body_define, body_goto, hb, body_goto, ha, body_fork]
  simp only [Point.arms, code_append, List.append_assoc]
  rfl

theorem loop {c : Operand} {head body merge : Bytes} {n : Nat} (hhead : Numbered head)
    (h : Written ((s.reserve n).goto head head) s₁ known k₁) (hc : c.KnownIn k₁)
    (hbody : Numbered body) (hmerge : Numbered merge)
    (h' : Written (s₁.fork c body merge body) s₂ k₁ k₂) :
    Written s (s₂.goto head merge) known k₁ := by
  obtain ⟨a, ha, hsa⟩ := h
  obtain ⟨b, hb, hsb⟩ := h'
  refine ⟨_, ?_, .loop (p := s.point known) hhead hsa hc hbody hmerge hsb⟩
  rw [body_goto, hb, body_fork, ha, body_goto]
  simp only [code_append, List.append_assoc]
  rfl

theorem slot (h : Written s s₁ known k₁) (name : Bytes) (type : Ty) {x : Operand}
    (hx : x.KnownIn k₁) :
    Written s (s₁.slot name type x) known (s₁.next (.ptr type) :: k₁) := by
  have ha : Defines (.alloca · type) [] := fun r ↦ ⟨rfl, rfl, rfl⟩
  have hd := h.define (.ptr type) ha (by simp)
  refine (hd.emit (i := .store x (.reg (s₁.next (.ptr type)))) rfl rfl rfl ?_).congr
    (Site.bind_body _ _ _) (Site.bind_current _ _ _) (Site.bind_nextRegister _ _ _)
  simp only [Instr.operands, List.forall_mem_cons, List.not_mem_nil, false_imp_iff, implies_true,
    and_true]
  exact ⟨hx.mono (List.subset_cons_self _ _), List.mem_cons_self⟩

end Written

theorem ScopesKnown.after_expr {e : Typed.Expr} {s s' : Site} {x : Operand}
    {known k₁ : List Register} (h : ScopesKnown s known) (hx : lowerExpr e s = .ok (x, s'))
    (hw : Written s s' known k₁) : ScopesKnown s' k₁ :=
  h.mono (lowerExpr_yields e hx).scopes hw.known_subset

theorem ScopesKnown.operand {s : Site} {known : List Register} (h : ScopesKnown s known)
    {name : Bytes} {x : Operand} (hx : s.function.operand name s.module = .ok x) :
    x.KnownIn known := by
  rcases operand_ok.1 hx with hl | ⟨-, c, -, rfl⟩
  · obtain ⟨scope, hscope, hl⟩ := List.exists_of_findSome?_eq_some hl
    obtain ⟨l₁, l₂, he, -⟩ := List.lookup_eq_some_iff.1 hl
    exact h (name, x) (List.mem_flatten.2 ⟨scope, hscope, by simp [he]⟩)
  · trivial

theorem lowerBinary_defines_one {op : BinaryOp} {type : ValueType} {x y : Operand} {s : Site}
    {r : Operand × Site} (h : lowerBinary op type x y s = .ok r) :
    ∃ ty make, Defines make [x, y] ∧ r = (.reg (s.next ty), s.define ty make) := by
  cases op <;> cases type <;>
    simp only [lowerBinary, comparison?, define_ok, throw_ok] at h <;>
    exact ⟨_, _, fun _ ↦ ⟨rfl, rfl, rfl⟩, h⟩

theorem lowerUnary_defines_one {op : UnaryOp} {type : ValueType} {x : Operand} {s : Site}
    {r : Operand × Site} (h : lowerUnary op type x s = .ok r) :
    r = (x, s) ∨ ∃ ty make operands, Defines make operands ∧
      (∀ y ∈ operands, y = x ∨ ∃ c, y = .const c) ∧ r = (.reg (s.next ty), s.define ty make) := by
  unfold lowerUnary at h
  split at h <;> simp only [define_ok, throw_ok, pure_ok] at h
  · exact .inl h
  · exact .inr ⟨_, (.bin · .xor x (.const (.bool true))), _, fun _ ↦ ⟨rfl, rfl, rfl⟩, by simp, h⟩
  · exact .inr ⟨_, (.bin · .sub (.const (.int32 0)) x), _, fun _ ↦ ⟨rfl, rfl, rfl⟩, by simp, h⟩
  · exact .inr ⟨_, (.bin · .fsub (.const (.float .single 0)) x), _, fun _ ↦ ⟨rfl, rfl, rfl⟩,
      by simp, h⟩

/-- Code was written, and it has left a known value. -/
def Values (s s' : Site) (known : List Register) (x : Operand) : Prop :=
  ∃ known', Written s s' known known' ∧ x.KnownIn known'

theorem Values.of_define {s s₁ : Site} {known k₁ : List Register} (h : Written s s₁ known k₁)
    (type : Ty) {make : Register → Instr} {operands : List Operand} (hm : Defines make operands)
    (hx : ∀ x ∈ operands, x.KnownIn k₁) :
    Values s (s₁.define type make) known (.reg (s₁.next type)) :=
  ⟨_, h.define type hm hx, List.mem_cons_self⟩

theorem lowerLiteral_values {v : Typed.Literal} {s s' : Site} {x : Operand}
    (h : lowerLiteral v s = .ok (x, s')) (known : List Register) : Values s s' known x := by
  cases v with
  | string text =>
    simp only [lowerLiteral, intern_bind, define_ok, Prod.mk.injEq] at h
    obtain ⟨rfl, rfl⟩ := h
    have hi : Written s (s.intern text) known known := (Written.refl s known).congr rfl rfl rfl
    refine .of_define hi _ (fun r ↦ ⟨rfl, rfl, rfl⟩) ?_
    simp only [List.forall_mem_cons, List.not_mem_nil, false_imp_iff, implies_true, and_true]
    exact ⟨trivial, trivial, trivial⟩
  | _ =>
    simp only [lowerLiteral, pure_ok, Prod.mk.injEq] at h
    obtain ⟨rfl, rfl⟩ := h
    exact ⟨known, .refl _ _, trivial⟩

mutual

theorem lowerExpr_values : ∀ (e : Typed.Expr) {s s' : Site} {x : Operand} {known : List Register},
    lowerExpr e s = .ok (x, s') → ScopesKnown s known → Values s s' known x
  | .literal v, s, s', x, known, h, _ =>
    lowerLiteral_values (by simpa only [lowerExpr] using h) known
  | .unary op operand, s, s', x, known, h, hk => by
    simp only [lowerExpr, bind_ok] at h
    obtain ⟨y, s₁, hy, h⟩ := h
    obtain ⟨k₁, hw, hyk⟩ := lowerExpr_values operand hy hk
    rcases lowerUnary_defines_one h with h | ⟨ty, make, operands, hm, hops, h⟩ <;> cases h
    · exact ⟨k₁, hw, hyk⟩
    · refine .of_define hw ty hm fun z hz ↦ ?_
      rcases hops z hz with rfl | ⟨c, rfl⟩
      · exact hyk
      · trivial
  | .unaryUnknown operand, s, s', x, known, h, _ => by simp [lowerExpr, bind_ok, throw_ok] at h
  | .binary op left right, s, s', x, known, h, hk => by
    simp only [lowerExpr, bind_ok] at h
    obtain ⟨y, s₁, hy, z, s₂, hz, h⟩ := h
    obtain ⟨k₁, hw₁, hyk⟩ := lowerExpr_values left hy hk
    have hk₁ := hk.after_expr hy hw₁
    obtain ⟨k₂, hw₂, hzk⟩ := lowerExpr_values right hz hk₁
    obtain ⟨ty, make, hm, h⟩ := lowerBinary_defines_one h
    cases h
    refine .of_define (hw₁.trans hw₂) ty hm ?_
    simp only [List.forall_mem_cons, List.not_mem_nil, false_imp_iff, implies_true, and_true]
    exact ⟨hyk.mono hw₂.known_subset, hzk⟩
  | .conditional cond then_ else_, s, s', x, known, h, hk => by
    obtain ⟨c, s₁, y, s₂, z, s₃, hc, hy, hz, h⟩ := lowerExpr_conditional_ok h
    cases h
    obtain ⟨k₁, hw₁, hck⟩ := lowerExpr_values cond hc hk
    have hk₁ := hk.after_expr hc hw₁
    obtain ⟨k₂, hw₂, hyk⟩ := lowerExpr_values then_ hy hk₁
    have hk₂ : ScopesKnown s₂ k₁ := hk₁.mono (lowerExpr_yields then_ hy).scopes fun _ h ↦ h
    obtain ⟨k₃, hw₃, hzk⟩ := lowerExpr_values else_ hz hk₂
    refine ⟨_, hw₁.trans (.select hck (numbered_label _ _ _) (numbered_label _ _ _)
      (numbered_label _ _ _) hw₂ hw₃ hyk hzk), List.mem_cons_self⟩
  | .ident type name, s, s', x, known, h, hk => by
    obtain ⟨ty, y, -, hy, h⟩ := lowerExpr_ident_ok h
    cases h
    exact .of_define (.refl s known) ty (fun r ↦ ⟨rfl, rfl, rfl⟩)
      (List.forall_mem_singleton.2 (hk.operand hy))
  | .call type callee args, s, s', x, known, h, hk => by
    obtain ⟨ty, xs, s₁, -, hxs, h⟩ := lowerExpr_call_ok h
    cases h
    obtain ⟨k₁, hw, hxk⟩ := lowerExprs_values args hxs hk
    exact .of_define hw ty (fun r ↦ ⟨rfl, rfl, rfl⟩) hxk
  | .missing, s, s', x, known, h, _ => by simp [lowerExpr, throw_ok] at h

theorem lowerExprs_values : ∀ (es : List Typed.Expr) {s s' : Site} {xs : List Operand}
    {known : List Register}, lowerExprs es s = .ok (xs, s') → ScopesKnown s known →
      ∃ known', Written s s' known known' ∧ ∀ x ∈ xs, x.KnownIn known'
  | [], s, s', xs, known, h, _ => by
    simp only [lowerExprs, pure_ok, Prod.mk.injEq] at h
    obtain ⟨rfl, rfl⟩ := h
    exact ⟨known, .refl _ _, by simp⟩
  | e :: es, s, s', xs, known, h, hk => by
    simp only [lowerExprs, bind_ok, pure_ok, Prod.mk.injEq] at h
    obtain ⟨y, s₁, hy, ys, s₂, hys, rfl, rfl⟩ := h
    obtain ⟨k₁, hw₁, hyk⟩ := lowerExpr_values e hy hk
    have hk₁ := hk.after_expr hy hw₁
    obtain ⟨k₂, hw₂, hysk⟩ := lowerExprs_values es hys hk₁
    exact ⟨k₂, hw₁.trans hw₂, List.forall_mem_cons.2 ⟨hyk.mono hw₂.known_subset, hysk⟩⟩

end

/-- Code was written, and the names in scope behind it stand for something known. -/
def Keeps (s s' : Site) (known : List Register) : Prop :=
  ∃ known', Written s s' known known' ∧ ScopesKnown s' known'

theorem Keeps.of_written {s s' : Site} {known known' : List Register}
    (h : Written s s' known known') (hk : ScopesKnown s known)
    (hs : s'.function.scopes = s.function.scopes) : Keeps s s' known :=
  ⟨known', h, hk.mono hs h.known_subset⟩

theorem ScopesKnown.slot {s : Site} {known : List Register} (h : ScopesKnown s known)
    (name : Bytes) (type : Ty) (x : Operand) :
    ScopesKnown (s.slot name type x) (s.next (.ptr type) :: known) := by
  intro y hy
  rw [Site.slot, Site.bind_scopes] at hy
  rcases List.mem_cons.1 hy with rfl | hy
  · exact List.mem_cons_self
  · exact (h y hy).mono (List.subset_cons_self _ _)

theorem lowerLocal_keeps {name : Bytes} {value : Typed.Expr} {s s' : Site}
    {known : List Register} (h : lowerLocal name value s = .ok ((), s'))
    (hk : ScopesKnown s known) : Keeps s s' known := by
  obtain ⟨x, s₁, type, hx, -, h⟩ := lowerLocal_ok h
  cases h
  obtain ⟨k₁, hw, hxk⟩ := lowerExpr_values value hx hk
  have hk₁ := hk.after_expr hx hw
  exact ⟨_, hw.slot name type hxk, hk₁.slot name type x⟩

theorem lowerPrint_written {value : Typed.Expr} {s s' : Site} {known : List Register}
    (h : lowerPrint value s = .ok ((), s')) (hk : ScopesKnown s known) :
    ∃ known', Written s s' known known' := by
  simp only [lowerPrint, bind_ok] at h
  obtain ⟨x, s₁, hx, h⟩ := h
  obtain ⟨k₁, hw, hxk⟩ := lowerExpr_values value hx hk
  cases ht : value.type <;>
    simp only [ht, define_bind, emit_ok, throw_ok, Prod.mk.injEq] at h <;> obtain ⟨-, rfl⟩ := h
  case bool =>
    have hm : Defines (.zext · x (.int 8)) [x] := fun r ↦ ⟨rfl, rfl, rfl⟩
    have hd := hw.define (.int 8) hm (List.forall_mem_singleton.2 hxk)
    exact ⟨_, hd.emit rfl rfl rfl (List.forall_mem_singleton.2 List.mem_cons_self)⟩
  all_goals exact ⟨_, hw.emit rfl rfl rfl (List.forall_mem_singleton.2 hxk)⟩

theorem lowerPrints_written : ∀ (es : List Typed.Expr) {s s' : Site} {known : List Register},
    lowerPrints es s = .ok ((), s') → ScopesKnown s known → ∃ known', Written s s' known known'
  | [], s, s', known, h, _ => by
    simp only [lowerPrints, pure_ok, Prod.mk.injEq] at h
    obtain ⟨-, rfl⟩ := h
    exact ⟨known, .refl _ _⟩
  | e :: es, s, s', known, h, hk => by
    simp only [lowerPrints, bind_ok] at h
    obtain ⟨_, s₁, he, h⟩ := h
    obtain ⟨k₁, hw₁⟩ := lowerPrint_written he hk
    have hk₁ : ScopesKnown s₁ k₁ := hk.mono (lowerPrint_yields he).2 hw₁.known_subset
    obtain ⟨k₂, hw₂⟩ := lowerPrints_written es h hk₁
    exact ⟨k₂, hw₁.trans hw₂⟩

theorem lowerScoped_written {body : Typed.Stmt} {s s' : Site} {known : List Register}
    (h : lowerScoped body s = .ok ((), s')) (hk : ScopesKnown s known)
    (ih : ∀ {s₁}, lowerStmt body s.enter = .ok ((), s₁) → ScopesKnown s.enter known →
      Keeps s.enter s₁ known) : ∃ known', Written s s' known known' := by
  obtain ⟨s₁, hb, h⟩ := lowerScoped_ok h
  cases h
  obtain ⟨k₁, hw, -⟩ := ih hb hk.enter
  exact ⟨k₁, ((Written.enter s known).trans hw).congr rfl rfl rfl⟩

mutual

theorem lowerStmt_keeps : ∀ (st : Typed.Stmt) {s s' : Site} {known : List Register},
    lowerStmt st s = .ok ((), s') → ScopesKnown s known → Keeps s s' known
  | .const name value, s, s', known, h, hk =>
    lowerLocal_keeps (by simpa only [lowerStmt] using h) hk
  | .let_ name value, s, s', known, h, hk =>
    lowerLocal_keeps (by simpa only [lowerStmt] using h) hk
  | .assign name value, s, s', known, h, hk => by
    obtain ⟨x, s₁, addr, hx, ha, h⟩ := lowerStmt_assign_ok h
    cases h
    obtain ⟨k₁, hw, hxk⟩ := lowerExpr_values value hx hk
    have hs := (lowerExpr_yields value hx).scopes
    have hk₁ : ScopesKnown s₁ k₁ := hk.mono hs hw.known_subset
    refine .of_written (hw.emit rfl rfl rfl ?_) hk hs
    simp only [Instr.operands, List.forall_mem_cons, List.not_mem_nil, false_imp_iff,
      implies_true, and_true]
    exact ⟨hxk, hk₁.operand ha⟩
  | .if_ cond then_ none, s, s', known, h, hk => by
    obtain ⟨c, s₁, s₂, hc, ht, h⟩ := lowerStmt_if_ok h
    cases h
    obtain ⟨k₁, hw₁, hck⟩ := lowerExpr_values cond hc hk
    have hs₁ := (lowerExpr_yields cond hc).scopes
    have hk₁ : ScopesKnown s₁ k₁ := hk.mono hs₁ hw₁.known_subset
    obtain ⟨k₂, hw₂⟩ := lowerScoped_written ht hk₁ (lowerStmt_keeps then_)
    have hs₂ := (lowerScoped_adds then_ ht).2
    exact .of_written
      (hw₁.trans (.guarded hck (numbered_label _ _ _) (numbered_label _ _ _) hw₂)) hk
      (hs₂.trans hs₁)
  | .if_ cond then_ (some else_), s, s', known, h, hk => by
    obtain ⟨c, s₁, s₂, s₃, hc, ht, he, h⟩ := lowerStmt_if_else_ok h
    cases h
    obtain ⟨k₁, hw₁, hck⟩ := lowerExpr_values cond hc hk
    have hs₁ := (lowerExpr_yields cond hc).scopes
    have hk₁ : ScopesKnown s₁ k₁ := hk.mono hs₁ hw₁.known_subset
    obtain ⟨k₂, hw₂⟩ := lowerScoped_written ht hk₁ (lowerStmt_keeps then_)
    have hs₂ := (lowerScoped_adds then_ ht).2
    have hk₂ : ScopesKnown s₂ k₁ := hk₁.mono hs₂ fun _ h ↦ h
    obtain ⟨k₃, hw₃⟩ := lowerScoped_written he hk₂ (lowerStmt_keeps else_)
    have hs₃ := (lowerScoped_adds else_ he).2
    exact .of_written (hw₁.trans (.choice hck (numbered_label _ _ _) (numbered_label _ _ _)
      (numbered_label _ _ _) hw₂ hw₃)) hk (hs₃.trans (hs₂.trans hs₁))
  | .while_ cond body, s, s', known, h, hk => by
    obtain ⟨c, s₁, s₂, hc, hb, h⟩ := lowerStmt_while_ok h
    cases h
    have hk' : ScopesKnown ((s.reserve 3).goto (s.label "while" 0) (s.label "while" 0)) known := hk
    obtain ⟨k₁, hw₁, hck⟩ := lowerExpr_values cond hc hk'
    have hs₁ := (lowerExpr_yields cond hc).scopes
    have hk₁ : ScopesKnown s₁ k₁ := hk'.mono hs₁ hw₁.known_subset
    obtain ⟨k₂, hw₂⟩ := lowerScoped_written hb hk₁ (lowerStmt_keeps body)
    have hs₂ := (lowerScoped_adds body hb).2
    exact .of_written (.loop (numbered_label _ _ _) hw₁ hck (numbered_label _ _ _)
      (numbered_label _ _ _) hw₂) hk (hs₂.trans hs₁)
  | .block stmts, s, s', known, h, hk => by
    obtain ⟨s₁, hb, h⟩ := lowerStmt_block_ok h
    cases h
    obtain ⟨k₁, hw, -⟩ := lowerStmts_keeps stmts hb hk.enter
    have hw' : Written s s₁.leave known k₁ :=
      ((Written.enter s known).trans hw).congr rfl rfl rfl
    exact .of_written hw' hk (lowerStmts_extends stmts hb).enclosed.2
  | .call callee args true, s, s', known, h, hk => by
    obtain ⟨s₁, ha, h⟩ := lowerStmt_print_ok h
    cases h
    obtain ⟨k₁, hw⟩ := lowerPrints_written args ha hk
    have hs := (lowerPrints_yields args ha).2
    split
    · exact .of_written (hw.emit rfl rfl rfl (by simp)) hk hs
    · exact .of_written hw hk hs
  | .call callee args false, s, s', known, h, hk => by
    obtain ⟨xs, s₁, hxs, h⟩ := lowerStmt_call_ok h
    cases h
    obtain ⟨k₁, hw, hxk⟩ := lowerExprs_values args hxs hk
    exact .of_written (hw.emit rfl rfl rfl hxk) hk (lowerExprs_yields args hxs).2.1
  | .empty, s, s', known, h, hk => by
    simp only [lowerStmt, pure_ok, Prod.mk.injEq] at h
    obtain ⟨-, rfl⟩ := h
    exact ⟨known, .refl _ _, hk⟩
  | .missing, s, s', known, h, _ => by simp [lowerStmt, throw_ok] at h

theorem lowerStmts_keeps : ∀ (ss : List Typed.Stmt) {s s' : Site} {known : List Register},
    lowerStmts ss s = .ok ((), s') → ScopesKnown s known → Keeps s s' known
  | [], s, s', known, h, hk => by
    simp only [lowerStmts, pure_ok, Prod.mk.injEq] at h
    obtain ⟨-, rfl⟩ := h
    exact ⟨known, .refl _ _, hk⟩
  | st :: ss, s, s', known, h, hk => by
    simp only [lowerStmts, bind_ok] at h
    obtain ⟨_, s₁, hs, h⟩ := h
    obtain ⟨k₁, hw₁, hk₁⟩ := lowerStmt_keeps st hs hk
    obtain ⟨k₂, hw₂, hk₂⟩ := lowerStmts_keeps ss h hk₁
    exact ⟨k₂, hw₁.trans hw₂, hk₂⟩

end

theorem params_keeps (ps : List Typed.Param) (rs : List Register) {s : Site}
    {known : List Register} (hk : ScopesKnown s known) (hr : rs ⊆ known) :
    Keeps s (s.params ps rs) known := by
  induction ps generalizing rs s known with
  | nil => exact ⟨known, .refl s known, hk⟩
  | cons p ps ih =>
    cases rs with
    | nil => exact ⟨known, .refl s known, hk⟩
    | cons r rs =>
      have hx : (Operand.reg r).KnownIn known := hr List.mem_cons_self
      have hw := (Written.refl s known).slot p.name r.type hx
      have hrs : rs ⊆ s.next (.ptr r.type) :: known :=
        fun _ h ↦ List.mem_cons_of_mem _ (hr (List.mem_cons_of_mem _ h))
      obtain ⟨k₁, hw₁, hk₁⟩ := ih rs (hk.slot p.name r.type (.reg r)) hrs
      exact ⟨k₁, hw.trans hw₁, hk₁⟩

theorem paramRegisters_named {ps : List Typed.Param} {rs : List Register}
    (h : paramRegisters ps = .ok rs) : ∀ r ∈ rs, ∃ name, r.name = Symbol.parameter name := by
  induction ps generalizing rs with
  | nil =>
    cases h
    simp
  | cons p ps ih =>
    obtain ⟨type, rs', -, hr, rfl⟩ := paramRegisters_cons h
    exact List.forall_mem_cons.2 ⟨⟨p.name, rfl⟩, ih hr⟩

/-- A function that returns behind structured code. -/
theorem isSSA_of_written {m : ModuleDraft} {F : Function} {s s' : Site} {known : List Register}
    (h : Written ⟨m, .new F.name F.params F.result⟩ s F.params known) (last : Instr)
    (hlast : last.isTerminator = true) (htargets : last.targets = [])
    (hx : ∀ x ∈ last.operands, x.KnownIn known)
    (hbody : s'.function.body = s.function.body ++ [last])
    (ha : ∃ added, Adds ⟨m, .new F.name F.params F.result⟩ s' [] added)
    (hF : F.body = s'.function.body)
    (hp : ∀ r ∈ F.params, ∃ name, r.name = Symbol.parameter name) : F.IsSSA := by
  obtain ⟨steps, hs, hcode⟩ := h
  obtain ⟨added, ha⟩ := ha
  have hshaped : F.Shaped steps (s.point known) last :=
    { code := hcode
      terminator := hlast
      targets := htargets
      known := hx
      body := by
        rw [hF, hbody, hs]
        rfl
      nodup := by
        rw [hF]
        exact labels_nodup ha
      params := hp }
  exact hshaped.isSSA

variable {m : ModuleDraft} {F : Function} {s : Site}

theorem ScopesKnown.new (m : ModuleDraft) (F : Function) :
    ScopesKnown ⟨m, .new F.name F.params F.result⟩ F.params := by
  intro x hx
  cases hx

theorem lowerBody_isSSA {params : List Typed.Param} {body : List Typed.Stmt}
    {result : Option Typed.Result} (hp : paramRegisters params = .ok F.params)
    (h : lowerBody params F.params body result ⟨m, .new F.name F.params F.result⟩ = .ok ((), s))
    (hF : F.body = s.function.body) : F.IsSSA := by
  have ha := lowerBody_adds h
  obtain ⟨s₁, hs, h⟩ := lowerBody_ok h
  obtain ⟨k₁, hw₁, hk₁⟩ := params_keeps params F.params (ScopesKnown.new m F).enter fun _ hr ↦ hr
  obtain ⟨k₂, hw₂, hk₂⟩ := lowerStmts_keeps body hs hk₁
  have hw := ((Written.enter _ _).trans hw₁).trans hw₂
  have hnames := paramRegisters_named hp
  rcases h with ⟨-, h⟩ | ⟨value, x, s₂, -, hx, h⟩ <;> cases h
  · exact isSSA_of_written hw .retVoid rfl rfl (by simp) rfl ha hF hnames
  · obtain ⟨k₃, hw₃, hxk⟩ := lowerExpr_values value.value hx hk₂
    have hxs : ∀ y ∈ Instr.operands (.ret x), y.KnownIn k₃ := List.forall_mem_singleton.2 hxk
    exact isSSA_of_written (hw.trans hw₃) (.ret x) rfl rfl hxs rfl ha hF hnames

theorem lowerMainBody_isSSA {body : Typed.Stmt} (hp : F.params = [])
    (h : lowerMainBody body ⟨m, .new F.name F.params F.result⟩ = .ok ((), s))
    (hF : F.body = s.function.body) : F.IsSSA := by
  have ha := lowerMainBody_adds h
  obtain ⟨s₁, hb, h⟩ := lowerMainBody_ok h
  cases h
  obtain ⟨k₁, hw₁, -⟩ := lowerStmt_keeps body hb (ScopesKnown.new m F).enter
  have hw := (Written.enter _ _).trans hw₁
  refine isSSA_of_written hw (.ret (.const (.int32 0))) rfl rfl ?_ rfl ha hF (by simp [hp])
  exact List.forall_mem_singleton.2 trivial

end PZero.Lowering
