import PZero.Proofs.Refinement.Variables

namespace PZero.Refinement

open IR Machine
open Lowering (Site lowerExpr lowerExprs lowerExpr_yields lowerExprs_yields)
open Semantics (Store Env evalExpr evalExprs)
open Typing (valueBinding)

/-- A call is over: the caller has the result and finds its own blocks as they were. -/
structure Returns (g : Nat) (i : Instr) (result : Option Semantics.Value) (st st' : State) :
    Prop where
  frame : st'.frame = st.frame.finish i (result.elim .nothing encode)
  size : st.memory.size ≤ st'.memory.size
  memory : ∀ b, g ≤ b → b < st.memory.size → st'.memory[b]? = st.memory[b]?
  callers : st'.callers = st.callers
  depth : st'.depth = st.depth

theorem Returns.keeps {g n : Nat} {i : Instr} {result : Option Semantics.Value} {st st' : State}
    (h : Returns g i result (fetch st) st')
    (hi : ∀ dst, i.result? = some dst → dst.name = Bytes.ofNat n) : Keeps g n [] st st' where
  registers k hk := by
    rw [h.frame]
    unfold Frame.finish
    split
    · next dst hd =>
      refine Registers.lookup_set_ne (fun he ↦ ?_) _ _
      rw [hi dst hd] at he
      have := Bytes.ofNat_inj he
      omega
    · rfl
  size := h.size
  memory b hg hb _ := h.memory b hg hb
  callers := h.callers
  depth := h.depth

/-- The machine calls functions from a depth as an evaluation does. -/
def Calls (p : Typed.Program) (pool : List Bytes) (image : Image) (call : Semantics.Call)
    (clock depth : Nat) : Prop :=
  ∀ {name : Bytes} {params : List ValueType} {result : Option ValueType}
    {args : List Semantics.Value} {w : Store} {st : State} (i : Instr),
    p.scope.lookup name = some (.function params result) → args.map Semantics.Value.type = params →
    Carries p pool image w st → st.depth + 1 = depth →
    Simulates image (Carries p pool image) clock (st.call image i name (args.map encode))
      (call name args w) fun r w' st' ↦
        Carries p pool image w' st' ∧ Returns image.globals.length i r st st' ∧
          r.map Semantics.Value.type = result

theorem Within.mono {F : Function} {pool : List Bytes} {s s' : Site} (h : Within F pool s')
    (hb : s.function.body <+: s'.function.body) (hm : s'.module = s.module) : Within F pool s :=
  ⟨h.labels, hb.trans h.body, hm ▸ h.pool, fun hc ↦ h.addresses (hm ▸ hc)⟩

variable {p : Typed.Program} {pool : List Bytes} {image : Image} {F : Function} {s s' : Site}
  {slots : List Slot} {env : Env} {w : Store} {st : State} {call : Semantics.Call}
  {clock depth : Nat}

theorem Within.of_define {type : Ty} {make : Register → Instr}
    (h : Within F pool (s.define type make)) : Within F pool s :=
  h.mono (List.prefix_append _ _) rfl

theorem Within.of_goto {target next : Bytes} (h : Within F pool (s.goto target next)) :
    Within F pool s :=
  h.mono ((List.prefix_append _ _).trans (List.prefix_append _ _)) rfl

theorem Within.of_fork {n : Nat} {cond : Operand} {yes no next : Bytes}
    (h : Within F pool ((s.reserve n).fork cond yes no next)) : Within F pool s :=
  h.mono ((List.prefix_append _ _).trans (List.prefix_append _ _)) rfl

theorem Within.goto_emit {target next : Bytes} (h : Within F pool (s.goto target next)) :
    s.function.body ++ [.br target] <+: F.body :=
  (List.prefix_append _ _).trans h.body

theorem Within.fork_emit {n : Nat} {cond : Operand} {yes no next : Bytes}
    (h : Within F pool ((s.reserve n).fork cond yes no next)) :
    s.function.body ++ [.condBr cond yes no] <+: F.body :=
  (List.prefix_append _ _).trans h.body

theorem computes_load {memory : Memory} {frame : Frame} {addr : Operand} {b : Nat} {c : Bool}
    {v : Value} {dst : Register} {elem : Ty} (ha : frame.operand image addr = .ok (.ptr (some b) 0))
    (hc : Cell memory b c v) : Computes image memory frame (.ok v) (.load dst elem addr) := by
  refine ⟨?_, fun st ↦ rfl⟩
  simp only [effect, ha, bind, Except.bind, hc.load]
  rfl

theorem computes_phi {memory : Memory} {frame : Frame} {v : Value} {dst : Register}
    {choices : List Incoming} (h : frame.incoming image choices = .ok v) :
    Computes image memory frame (.ok v) (.phi dst choices) := by
  refine ⟨?_, fun st ↦ rfl⟩
  simp only [effect, h, bind, Except.bind]
  rfl

/-- The value of an expression has been computed. -/
def Evaluated (p : Typed.Program) (pool : List Bytes) (image : Image) (F : Function) (s s' : Site)
    (slots : List Slot) (env : Env) (st : State) (x : Operand) (type : ValueType)
    (v : Semantics.Value) (w' : Store) (st' : State) : Prop :=
  Stands p pool image F s' slots env w' st' ∧
    Keeps image.globals.length s.function.nextRegister [] st st' ∧
    st'.frame.operand image x = .ok (encode v) ∧ v.type = type

theorem lowerLiteral_simulates {value : Typed.Literal} {x : Operand}
    (h : Lowering.lowerLiteral value s = .ok (x, s')) (hv : value.IsScalar)
    (hs : Stands p pool image F s slots env w st) :
    Simulates image (Carries p pool image) clock (.running st)
      (evalExpr call env (.literal value) w)
      (Evaluated p pool image F s s' slots env st x value.type) := by
  have hk := Keeps.refl image.globals.length s.function.nextRegister [] st
  cases value with
  | string text => exact absurd hv id
  | int n =>
    simp only [Lowering.lowerLiteral, Lowering.Lower.pure_ok, Prod.mk.injEq] at h
    obtain ⟨rfl, rfl⟩ := h
    simp only [evalExpr, Semantics.Value.ofLiteral?, Option.elim, Semantics.ofExcept]
    exact .ok ⟨hs, hk, congrArg Except.ok (encode_int n).symm, rfl⟩
  | _ =>
    simp only [Lowering.lowerLiteral, Lowering.Lower.pure_ok, Prod.mk.injEq] at h
    obtain ⟨rfl, rfl⟩ := h
    simp only [evalExpr, Semantics.Value.ofLiteral?, Option.elim, Semantics.ofExcept]
    exact .ok ⟨hs, hk, rfl, rfl⟩

theorem step_call {i : Instr} {callee : Bytes} {xs : List Operand} {vs : List Value}
    (hu : image.maxSteps ≤ 0) (h : At F s st.frame) (hb : s.function.body ++ [i] <+: F.body)
    (hx : st.frame.operands image xs = .ok vs)
    (hi : (∃ dst type, i = .call dst type callee xs) ∨ i = .callVoid callee xs) :
    step image st = (fetch st).call image i callee vs := by
  rw [step_eq hu h hb]
  rcases hi with ⟨dst, type, rfl⟩ | rfl <;>
    simp only [State.execute, fetch_operands, hx]

theorem call_simulates {callee : Bytes} {xs : List Operand} {vs : List Semantics.Value}
    {type : ValueType} {ty : Ty} (hl : Linked p pool image)
    (hcall : Calls p pool image call clock depth)
    (h : Stands p pool image F s slots env w st)
    (hw : Within F pool (s.define ty (.call · ty callee xs)))
    (hx : st.frame.operands image xs = .ok (vs.map encode))
    (hb : p.scope.lookup callee = some (.function (vs.map Semantics.Value.type) (some type)))
    (hd : st.depth + 1 = depth) :
    Simulates image (Carries p pool image) clock (.running st)
      ((do
        let result ← call callee vs
        Semantics.ofExcept (result.elim (.error .stuck) .ok)) w)
      (Evaluated p pool image F s (s.define ty (.call · ty callee xs)) slots env st
        (.reg (s.next ty)) type) := by
  have hi : s.function.body ++ [.call (s.next ty) ty callee xs] <+: F.body := hw.body
  refine .step ⟨w, h.store⟩ ?_
  rw [step_call hl.unlimited h.control hi hx (.inl ⟨_, _, rfl⟩)]
  have hcarry : Carries p pool image w (fetch st) := h.store.congr rfl rfl
  apply (hcall _ hb rfl hcarry hd).bind
  intro r w' st' hq
  obtain ⟨hc, hr, ht⟩ := hq
  match r, ht with
  | some v, ht =>
    have hk : Keeps image.globals.length s.function.nextRegister [] st st' :=
      hr.keeps fun dst hdst ↦ by
        cases hdst
        rfl
    refine .ok ⟨h.keep hk ?_ rfl (h.below_le (Nat.le_succ _)) hc, hk, ?_, Option.some.inj ht⟩
    · rw [hr.frame]
      exact h.control.next rfl rfl hi (Frame.finish_function _ _ _) (Frame.finish_ahead _ _ _)
        (Frame.finish_current _ _ _)
    · rw [hr.frame]
      exact Frame.operand_reg (Registers.lookup_set_self _ _ _)

theorem Stands.merge {e t : Site} {label : Bytes} {type : Ty} {choices : List Incoming}
    {z : Operand} {v : Value} (hl : Linked p pool image)
    (h : Stands p pool image F e slots env w st)
    (hi : e.function.body ++ [.br label] <+: F.body)
    (hw : Within F pool ((t.start label).define type (.phi · choices)))
    (hs : t.function.scopes = e.function.scopes)
    (hn : e.function.nextRegister ≤ t.function.nextRegister)
    (hz : st.frame.operand image z = .ok v)
    (hc : ∀ frame : Frame, frame.previous = e.function.current →
      frame.incoming image choices = frame.operand image z) :
    ∃ st', Leads image (Carries p pool image) 2 (.running st) (.running st') ∧
      Stands p pool image F ((t.start label).define type (.phi · choices)) slots env w st' ∧
      Keeps image.globals.length e.function.nextRegister [] st st' ∧
      st'.frame.operand image (.reg ((t.start label).next type)) = .ok v := by
  obtain ⟨st₁, hs₁, h₁, hm, hp⟩ := h.goto hl hi hw.of_define hs (h.below_le hn)
  have hv : (fetch st₁).frame.incoming image choices = .ok v := by
    rw [hc (fetch st₁).frame hp, fetch_operand, Frame.operand_congr hm.registers, hz]
  obtain ⟨st₂, hs₂, h₂, hk, hv₂⟩ := h₁.define hl hw rfl (computes_phi hv)
  exact ⟨st₂, .two ⟨w, h.store⟩ hs₁ ⟨w, h₁.store⟩ hs₂, h₂, (hm.keeps _ _ _).trans hk hn, hv₂⟩

theorem current_ne {c x y : Operand} {then_ else_ : Typed.Expr} {s₁ s₂ s₃ : Site}
    (hx : lowerExpr then_ ((s₁.reserve 3).fork c (s₁.label "then" 0) (s₁.label "else" 1)
      (s₁.label "then" 0)) = .ok (x, s₂))
    (hy : lowerExpr else_ (s₂.goto (s₁.label "merge" 2) (s₁.label "else" 1)) = .ok (y, s₃)) :
    s₂.function.current ≠ s₃.function.current := by
  obtain ⟨⟨a, ha⟩, -, -⟩ := lowerExpr_yields then_ hx
  obtain ⟨⟨b, hb⟩, -, -⟩ := lowerExpr_yields else_ hy
  have hle := ha.label_le
  have ha' : labelNumber s₂.function.current = s₁.function.nextLabel ∨
      s₁.function.nextLabel + 3 ≤ labelNumber s₂.function.current ∧
        labelNumber s₂.function.current < s₂.function.nextLabel := by
    rcases ha.current with h | h
    · rw [h]
      exact .inl (Lowering.labelNumber_label "then" 0 s₁)
    · exact .inr (ha.range _ (List.mem_append_right _ h))
  have hb' : labelNumber s₃.function.current = s₁.function.nextLabel + 1 ∨
      s₂.function.nextLabel ≤ labelNumber s₃.function.current := by
    rcases hb.current with h | h
    · rw [h]
      exact .inl (Lowering.labelNumber_label "else" 1 s₁)
    · exact .inr (hb.range _ (List.mem_append_right _ h)).1
  change s₁.function.nextLabel + 3 ≤ s₂.function.nextLabel at hle
  intro he
  rw [he] at ha'
  omega

/-- A guard has its value and control is where the value leads, at one of two labels. -/
theorem guard_simulates {α : Type} {cond : Typed.Expr} {c : Operand} {s₁ t t' : Site}
    {label label' : Bytes} {yes no : Semantics.Eval α} {Q : α → Store → State → Prop}
    (hl : Linked p pool image) (hn : s.function.nextRegister ≤ s₁.function.nextRegister)
    (hi : s₁.function.body ++ [.condBr c label label'] <+: F.body)
    (hc : Simulates image (Carries p pool image) clock (.running st) (evalExpr call env cond w)
      (Evaluated p pool image F s s₁ slots env st c .bool))
    (hw : Within F pool (t.start label)) (hs : t.function.scopes = s₁.function.scopes)
    (hr : s₁.function.nextRegister ≤ t.function.nextRegister)
    (hw' : Within F pool (t'.start label')) (hs' : t'.function.scopes = s₁.function.scopes)
    (hr' : s₁.function.nextRegister ≤ t'.function.nextRegister)
    (hyes : ∀ {w' st'}, Stands p pool image F (t.start label) slots env w' st' →
      Keeps image.globals.length s.function.nextRegister [] st st' →
      Simulates image (Carries p pool image) clock (.running st') (yes w') Q)
    (hno : ∀ {w' st'}, Stands p pool image F (t'.start label') slots env w' st' →
      Keeps image.globals.length s.function.nextRegister [] st st' →
      Simulates image (Carries p pool image) clock (.running st') (no w') Q) :
    Simulates image (Carries p pool image) clock (.running st)
      ((evalExpr call env cond >>= fun c ↦ Semantics.select c yes no) w) Q := by
  apply hc.bind
  intro v w₁ st₁ hq
  obtain ⟨h₁, hk₁, hv, ht⟩ := hq
  refine .select ht (fun he ↦ ?_) (fun he ↦ ?_)
  · subst he
    obtain ⟨st₂, hs₂, h₂, hm⟩ := h₁.fork hl hi hv hw hs hr
    refine .step ⟨w₁, h₁.store⟩ ?_
    rw [hs₂]
    exact hyes h₂ (hk₁.trans (hm.keeps _ _ _) hn)
  · subst he
    obtain ⟨st₂, hs₂, h₂, hm⟩ := h₁.fork hl hi hv hw' hs' hr'
    refine .step ⟨w₁, h₁.store⟩ ?_
    rw [hs₂]
    exact hno h₂ (hk₁.trans (hm.keeps _ _ _) hn)

theorem conditional_simulates {cond then_ else_ : Typed.Expr} {c x y : Operand} {s₁ s₂ s₃ : Site}
    {type : ValueType} (hl : Linked p pool image)
    (hc : lowerExpr cond s = .ok (c, s₁))
    (hx : lowerExpr then_ ((s₁.reserve 3).fork c (s₁.label "then" 0) (s₁.label "else" 1)
      (s₁.label "then" 0)) = .ok (x, s₂))
    (hy : lowerExpr else_ (s₂.goto (s₁.label "merge" 2) (s₁.label "else" 1)) = .ok (y, s₃))
    (hw : Within F pool ((s₃.goto (s₁.label "merge" 2) (s₁.label "merge" 2)).define x.type
      (.phi · [⟨x, s₂.function.current⟩, ⟨y, s₃.function.current⟩])))
    (ihc : Within F pool s₁ →
      Simulates image (Carries p pool image) clock (.running st) (evalExpr call env cond w)
        (Evaluated p pool image F s s₁ slots env st c .bool))
    (ihx : ∀ {w' st'}, Within F pool s₂ → st'.depth = st.depth →
      Stands p pool image F ((s₁.reserve 3).fork c (s₁.label "then" 0) (s₁.label "else" 1)
        (s₁.label "then" 0)) slots env w' st' →
      Simulates image (Carries p pool image) clock (.running st') (evalExpr call env then_ w')
        (Evaluated p pool image F ((s₁.reserve 3).fork c (s₁.label "then" 0) (s₁.label "else" 1)
          (s₁.label "then" 0)) s₂ slots env st' x type))
    (ihy : ∀ {w' st'}, Within F pool s₃ → st'.depth = st.depth →
      Stands p pool image F (s₂.goto (s₁.label "merge" 2) (s₁.label "else" 1)) slots env w' st' →
      Simulates image (Carries p pool image) clock (.running st') (evalExpr call env else_ w')
        (Evaluated p pool image F (s₂.goto (s₁.label "merge" 2) (s₁.label "else" 1)) s₃ slots env
          st' y type)) :
    Simulates image (Carries p pool image) clock (.running st)
      (evalExpr call env (.conditional cond then_ else_) w)
      (Evaluated p pool image F s
        ((s₃.goto (s₁.label "merge" 2) (s₁.label "merge" 2)).define x.type
          (.phi · [⟨x, s₂.function.current⟩, ⟨y, s₃.function.current⟩])) slots env st
        (.reg (s₃.next x.type)) type) := by
  have hne := current_ne hx hy
  obtain ⟨⟨a, ha⟩, hsa, -⟩ := lowerExpr_yields cond hc
  obtain ⟨⟨b, hb⟩, hsb, -⟩ := lowerExpr_yields then_ hx
  obtain ⟨⟨d, hd⟩, hsd, -⟩ := lowerExpr_yields else_ hy
  have hna := ha.register_le
  have hnb : s₁.function.nextRegister ≤ s₂.function.nextRegister := hb.register_le
  have hnd : s₂.function.nextRegister ≤ s₃.function.nextRegister := hd.register_le
  have hw₃ := hw.of_define.of_goto
  have hwg := hw₃.of_adds hd
  have hw₂ := hwg.of_goto
  have hwf := hw₂.of_adds hb
  simp only [evalExpr]
  refine guard_simulates hl hna hwf.fork_emit (ihc hwf.of_fork) hwf rfl (Nat.le_refl _) hwg hsb hnb
    (fun h hk ↦ ?_) (fun h hk ↦ ?_)
  · apply (ihx hw₂ hk.depth h).extend
    intro v w' st₁ hq
    obtain ⟨h₁, hk₁, hv, ht⟩ := hq
    obtain ⟨st₂, hs₂, h₂, hk₂, hv₂⟩ := h₁.merge hl hwg.goto_emit hw hsd hnd hv fun frame hp ↦ by
      simp only [Frame.incoming, hp, if_true]
    exact ⟨2, st₂, hs₂, h₂, (hk.trans hk₁ hna).trans hk₂ (Nat.le_trans hna hnb), hv₂, ht⟩
  · apply (ihy hw₃ hk.depth h).extend
    intro v w' st₁ hq
    obtain ⟨h₁, hk₁, hv, ht⟩ := hq
    obtain ⟨st₂, hs₂, h₂, hk₂, hv₂⟩ :=
      h₁.merge hl hw.of_define.goto_emit hw rfl (Nat.le_refl _) hv fun frame hp ↦ by
        simp only [Frame.incoming, hp, hne, if_true, if_false]
    have hna' := Nat.le_trans hna hnb
    exact ⟨2, st₂, hs₂, h₂, (hk.trans hk₁ hna').trans hk₂ (Nat.le_trans hna' hnd), hv₂, ht⟩

theorem scopeOf_function {name : Bytes} {params : List ValueType} {result : Option ValueType}
    (h : (scopeOf p slots).lookup name = some (.function params result)) :
    p.scope.lookup name = some (.function params result) := by
  rw [scopeOf, List.lookup_append, lookup_map] at h
  cases hf : slots.find? fun x ↦ x.name == name with
  | none => simpa [hf] using h
  | some slot =>
    simp only [hf, Option.map_some, Option.some_or, Option.some.injEq, valueBinding] at h
    split at h <;> simp at h

theorem ident_simulates {type : ValueType} {name : Bytes} {x : Operand} (hl : Linked p pool image)
    (h : lowerExpr (.ident type name) s = .ok (x, s'))
    (ht : Typed.Expr.WellTyped (scopeOf p slots) (.ident type name)) (hw : Within F pool s')
    (hs : Stands p pool image F s slots env w st) :
    Simulates image (Carries p pool image) clock (.running st)
      (evalExpr call env (.ident type name) w)
      (Evaluated p pool image F s s' slots env st x type) := by
  obtain ⟨ty, y, -, hy, h⟩ := Lowering.lowerExpr_ident_ok h
  cases h
  obtain ⟨isConst, hb⟩ : ∃ c, (scopeOf p slots).lookup name = some (valueBinding c type) := by
    rcases ht.2 with hb | hb
    · exact ⟨true, hb⟩
    · exact ⟨false, hb⟩
  obtain ⟨v, b, c, ha, hc, hv, hr⟩ := hs.read hw.of_define hy hb
  have ha' : (fetch st).frame.operand image y = .ok (.ptr (some b) 0) := by
    rw [fetch_operand, ha]
  obtain ⟨st', hstep, hs', hk, hx⟩ := hs.define hl hw rfl (computes_load ha' hc)
  simp only [evalExpr, hr]
  refine .step ⟨w, hs.store⟩ ?_
  rw [hstep]
  exact .ok ⟨hs', hk, hx, hv⟩

mutual

theorem lowerExpr_simulates (hl : Linked p pool image)
    (hcall : Calls p pool image call clock depth) : ∀ (e : Typed.Expr) {s s' : Site} {x : Operand}
    {w : Store} {st : State}, lowerExpr e s = .ok (x, s') → e.WellTyped (scopeOf p slots) →
      Within F pool s' → st.depth + 1 = depth →
      Stands p pool image F s slots env w st →
      Simulates image (Carries p pool image) clock (.running st) (evalExpr call env e w)
        (Evaluated p pool image F s s' slots env st x e.type)
  | .literal value, s, s', x, w, st, h, ht, hw, hd, hs =>
    lowerLiteral_simulates (by simpa only [lowerExpr] using h)
      (by simpa only [Typed.Expr.WellTyped] using ht) hs
  | .unary op operand, s, s', x, w, st, h, ht, hw, hd, hs => by
    simp only [lowerExpr, Lowering.Lower.bind_ok] at h
    obtain ⟨y, s₁, hy, h⟩ := h
    simp only [Typed.Expr.WellTyped] at ht
    have hw₁ : Within F pool s₁ := by
      rcases Lowering.lowerUnary_ok h with he | ⟨ty, make, -, he⟩ <;> cases he
      · exact hw
      · exact hw.of_define
    simp only [evalExpr]
    apply (lowerExpr_simulates hl hcall operand hy ht.1 hw₁ hd hs).bind
    intro v w₁ st₁ hq
    obtain ⟨h₁, hk₁, hv, tv⟩ := hq
    have hv' : (fetch st₁).frame.operand image y = .ok (encode v) := by
      rw [fetch_operand, hv]
    rcases lowerUnary_defines st₁.memory h ht.2 tv hv' with ⟨he, hu⟩ | ⟨got, hdef, hag⟩
    · cases he
      rw [hu]
      exact .ok ⟨h₁, hk₁, hv, tv⟩
    · apply (h₁.operate hl hw hdef hag).mono
      intro u w₂ st₂ hq
      obtain ⟨h₂, hk₂, hu, tu⟩ := hq
      have hn := (lowerExpr_yields operand hy).adds.choose_spec.register_le
      exact ⟨h₂, hk₁.trans hk₂ hn, hu, tu⟩
  | .unaryUnknown operand, s, s', x, w, st, h, ht, hw, hd, hs => by
    simp [Typed.Expr.WellTyped] at ht
  | .binary op left right, s, s', x, w, st, h, ht, hw, hd, hs => by
    simp only [lowerExpr, Lowering.Lower.bind_ok] at h
    obtain ⟨y, s₁, hy, z, s₂, hz, h⟩ := h
    simp only [Typed.Expr.WellTyped] at ht
    obtain ⟨htl, htr, hte, hto⟩ := ht
    obtain ⟨⟨a, ha⟩, -, hby⟩ := lowerExpr_yields left hy
    obtain ⟨⟨b, hb⟩, -, -⟩ := lowerExpr_yields right hz
    have hw₂ : Within F pool s₂ := by
      obtain ⟨ty, make, -, he⟩ := Lowering.lowerBinary_ok h
      cases he
      exact hw.of_define
    simp only [evalExpr]
    apply (lowerExpr_simulates hl hcall left hy htl (hw₂.of_adds hb) hd hs).bind
    intro u w₁ st₁ hq
    obtain ⟨h₁, hk₁, hu, tu⟩ := hq
    apply (lowerExpr_simulates hl hcall right hz htr hw₂ (hk₁.depth ▸ hd) h₁).bind
    intro v w₂ st₂ hq
    obtain ⟨h₂, hk₂, hv, tv⟩ := hq
    have hu' : (fetch st₂).frame.operand image y = .ok (encode u) := by
      rw [fetch_operand, hk₂.operand hby, hu]
    have hv' : (fetch st₂).frame.operand image z = .ok (encode v) := by
      rw [fetch_operand, hv]
    obtain ⟨got, hdef, hag⟩ :=
      lowerBinary_defines st₂.memory h hto tu (tv.trans hte.symm) hu' hv'
    apply (h₂.operate hl hw hdef hag).mono
    intro r w₃ st₃ hq
    obtain ⟨h₃, hk₃, hr, tr⟩ := hq
    have hn := Nat.le_trans ha.register_le hb.register_le
    exact ⟨h₃, (hk₁.trans hk₂ ha.register_le).trans hk₃ hn, hr, tr⟩
  | .conditional cond then_ else_, s, s', x, w, st, h, ht, hw, hd, hs => by
    obtain ⟨c, s₁, y, s₂, z, s₃, hc, hy, hz, h⟩ := Lowering.lowerExpr_conditional_ok h
    cases h
    simp only [Typed.Expr.WellTyped] at ht
    obtain ⟨htc, htt, hte, hcb, heq⟩ := ht
    refine conditional_simulates hl hc hy hz hw (fun hw₁ ↦ ?_) (fun hw₂ hcl h₂ ↦ ?_)
      (fun hw₃ hcl h₃ ↦ ?_)
    · rw [← hcb]
      exact lowerExpr_simulates hl hcall cond hc htc hw₁ hd hs
    · exact lowerExpr_simulates hl hcall then_ hy htt hw₂ (hcl ▸ hd) h₂
    · change Simulates _ _ _ _ _ (Evaluated _ _ _ _ _ _ _ _ _ _ then_.type)
      rw [heq]
      exact lowerExpr_simulates hl hcall else_ hz hte hw₃ (hcl ▸ hd) h₃
  | .ident type name, s, s', x, w, st, h, ht, hw, hd, hs => ident_simulates hl h ht hw hs
  | .call type callee args, s, s', x, w, st, h, ht, hw, hd, hs => by
    obtain ⟨ty, xs, s₁, -, hxs, h⟩ := Lowering.lowerExpr_call_ok h
    cases h
    simp only [Typed.Expr.WellTyped] at ht
    obtain ⟨hta, -, hb⟩ := ht
    obtain ⟨⟨a, ha⟩, -, -⟩ := lowerExprs_yields args hxs
    simp only [evalExpr]
    apply (lowerExprs_simulates hl hcall args hxs hta hw.of_define hd hs).bind
    intro vs w₁ st₁ hq
    obtain ⟨h₁, hk₁, hv, tv⟩ := hq
    have hb' := scopeOf_function hb
    rw [← tv] at hb'
    apply (call_simulates hl hcall h₁ hw hv hb' (hk₁.depth ▸ hd)).mono
    intro r w₂ st₂ hq
    obtain ⟨h₂, hk₂, hr, tr⟩ := hq
    exact ⟨h₂, hk₁.trans hk₂ ha.register_le, hr, tr⟩
  | .missing, s, s', x, w, st, h, ht, hw, hd, hs => by simp [Typed.Expr.WellTyped] at ht

theorem lowerExprs_simulates (hl : Linked p pool image)
    (hcall : Calls p pool image call clock depth) : ∀ (es : List Typed.Expr) {s s' : Site}
    {xs : List Operand} {w : Store} {st : State}, lowerExprs es s = .ok (xs, s') →
      Typed.Expr.AllWellTyped (scopeOf p slots) es → Within F pool s' →
      st.depth + 1 = depth → Stands p pool image F s slots env w st →
      Simulates image (Carries p pool image) clock (.running st) (evalExprs call env es w)
        fun vs w' st' ↦ Stands p pool image F s' slots env w' st' ∧
          Keeps image.globals.length s.function.nextRegister [] st st' ∧
          st'.frame.operands image xs = .ok (vs.map encode) ∧
          vs.map Semantics.Value.type = es.map Typed.Expr.type
  | [], s, s', xs, w, st, h, ht, hw, hd, hs => by
    simp only [lowerExprs, Lowering.Lower.pure_ok, Prod.mk.injEq] at h
    obtain ⟨rfl, rfl⟩ := h
    simp only [evalExprs]
    exact .ok ⟨hs, Keeps.refl _ _ _ _, rfl, rfl⟩
  | e :: es, s, s', xs, w, st, h, ht, hw, hd, hs => by
    simp only [lowerExprs, Lowering.Lower.bind_ok, Lowering.Lower.pure_ok, Prod.mk.injEq] at h
    obtain ⟨y, s₁, hy, ys, s₂, hys, rfl, rfl⟩ := h
    simp only [Typed.Expr.AllWellTyped] at ht
    obtain ⟨⟨a, ha⟩, -, hby⟩ := lowerExpr_yields e hy
    obtain ⟨⟨b, hb⟩, -, -⟩ := lowerExprs_yields es hys
    simp only [evalExprs]
    apply (lowerExpr_simulates hl hcall e hy ht.1 (hw.of_adds hb) hd hs).bind
    intro u w₁ st₁ hq
    obtain ⟨h₁, hk₁, hu, tu⟩ := hq
    apply (lowerExprs_simulates hl hcall es hys ht.2 hw (hk₁.depth ▸ hd) h₁).bind
    intro us w₂ st₂ hq
    obtain ⟨h₂, hk₂, hus, tus⟩ := hq
    refine .ok ⟨h₂, hk₁.trans hk₂ ha.register_le, ?_, by rw [List.map_cons, tu, tus]; rfl⟩
    simp only [Frame.operands, hk₂.operand hby, hu, hus, bind, Except.bind]
    rfl

end

end PZero.Refinement
