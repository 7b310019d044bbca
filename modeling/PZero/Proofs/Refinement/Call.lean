import PZero.Proofs.Refinement.Stmt

namespace PZero.Refinement

open IR Machine
open Lowering (Site lowerBody lowerMainBody lowerStmts paramRegisters typeOf)
open Semantics (Store Env)

theorem function?_of_mem {p : Typed.Program} {name : Bytes} {params : List Typed.Param}
    {body : List Typed.Stmt} {result : Option Typed.Result}
    (hn : (p.decls.map Typed.Decl.name).Nodup) (hd : .fun_ name params body result ∈ p.decls) :
    Semantics.function? p name = some (params, body, result) := by
  unfold Semantics.function?
  generalize p.decls = ds at hd hn
  induction ds with
  | nil => simp at hd
  | cons d ds ih =>
    rw [List.map_cons, List.nodup_cons] at hn
    rcases List.mem_cons.1 hd with rfl | hm
    · simp
    · have hne : d.name ≠ name := fun he ↦ hn.1 (he ▸ List.mem_map_of_mem hm)
      rw [List.findSome?_cons]
      cases d with
      | fun_ other _ _ _ =>
        have hne' : other ≠ name := hne
        simp only [hne', if_false]
        exact ih hm hn.2
      | _ => exact ih hm hn.2

theorem exists_function {p : Typed.Program} {name : Bytes} {params : List ValueType}
    {result : Option ValueType} (hp : p.WellTyped)
    (h : p.scope.lookup name = some (.function params result)) :
    ∃ ps body r, Semantics.function? p name = some (ps, body, r) ∧
      ps.map Typed.Param.type = params ∧ r.map Typed.Result.type = result ∧
      Typed.Decl.WellTyped p.scope (.fun_ name ps body r) := by
  obtain ⟨d, hd, hb⟩ := Typing.mem_decls_of_lookup h
  cases d with
  | fun_ name' ps body r =>
    simp only [Typed.Decl.binding?, Option.some.injEq, Prod.mk.injEq,
      Typing.Binding.function.injEq] at hb
    obtain ⟨rfl, hps, hr⟩ := hb
    exact ⟨ps, body, r, function?_of_mem hp.distinct hd, hps, hr, hp.decls _ hd⟩
  | const name' value => cases value <;> simp [Typed.Decl.binding?] at hb
  | var name' value => cases value <;> simp [Typed.Decl.binding?] at hb
  | missing => simp [Typed.Decl.binding?] at hb

theorem lookup_foldl_set {name : Bytes} (pairs : List (Register × Value)) (init : Registers)
    (h : name ∉ pairs.map fun x ↦ x.1.name) :
    (pairs.foldl (fun held (r, v) ↦ Registers.set r.name v held) init).lookup name =
      init.lookup name := by
  induction pairs generalizing init with
  | nil => rfl
  | cons x pairs ih =>
    simp only [List.map_cons, List.mem_cons, not_or] at h
    rw [List.foldl_cons, ih _ h.2]
    exact Registers.lookup_set_ne h.1 _ _

theorem lookup_enter {rs : List Register} {vs : List Value} (init : Registers)
    (hn : (rs.map Register.name).Nodup) (hl : rs.length = vs.length) :
    List.Forall₂ (fun r v ↦
      ((rs.zip vs).foldl (fun held (r, v) ↦ Registers.set r.name v held) init).lookup r.name =
        some v) rs vs := by
  induction rs generalizing vs init with
  | nil =>
    cases vs with
    | nil => exact .nil
    | cons v vs => simp at hl
  | cons r rs ih =>
    cases vs with
    | nil => simp at hl
    | cons v vs =>
      rw [List.map_cons, List.nodup_cons] at hn
      rw [List.zip_cons_cons, List.foldl_cons]
      refine .cons ?_ (ih _ hn.2 (Nat.succ.inj hl))
      rw [lookup_foldl_set]
      · exact Registers.lookup_set_self _ _ _
      · intro hm
        obtain ⟨x, hx, he⟩ := List.mem_map.1 hm
        exact hn.1 (he ▸ List.mem_map_of_mem (List.of_mem_zip hx).1)

theorem paramRegisters_names {ps : List Typed.Param} {rs : List Register}
    (h : paramRegisters ps = .ok rs) :
    rs.map Register.name = ps.map fun q ↦ Symbol.parameter q.name := by
  induction ps generalizing rs with
  | nil =>
    cases h
    rfl
  | cons q ps ih =>
    obtain ⟨type, rs', -, hr, rfl⟩ := Lowering.paramRegisters_cons h
    rw [List.map_cons, List.map_cons, ih hr]

variable {p : Typed.Program} {pool : List Bytes} {image : Image} {F : Function} {w : Store}
  {clock depth : Nat}

theorem params_simulate (hl : Linked p pool image) : ∀ (ps : List Typed.Param)
    {rs : List Register} {args : List Semantics.Value} {s : Site} {slots : List Slot} {env : Env}
    {st : State}, paramRegisters ps = .ok rs →
      args.map Semantics.Value.type = ps.map Typed.Param.type →
      List.Forall₂ (fun r v ↦ st.frame.registers.lookup r.name = some (encode v)) rs args →
      Within F pool (s.params ps rs) → Stands p pool image F s slots env w st →
      ∃ k st' new, Leads image (Carries p pool image) k (.running st) (.running st') ∧
        Stands p pool image F (s.params ps rs) (new ++ slots)
          (Semantics.entryEnv ps args ++ env) w st' ∧
        Keeps image.globals.length s.function.nextRegister [] st st' ∧
        (∀ x ∈ new, st.memory.size ≤ x.block) ∧
        scopeOf p (new ++ slots) = Typed.paramScope ps ++ scopeOf p slots
  | [], rs, args, s, slots, env, st, hr, ht, hv, hw, hs => by
    cases hr
    cases hv
    exact ⟨0, st, [], .refl _, hs, Keeps.refl _ _ _ _, by simp, rfl⟩
  | q :: ps, rs, args, s, slots, env, st, hr, ht, hv, hw, hs => by
    obtain ⟨type, rs', hty, hr', rfl⟩ := Lowering.paramRegisters_cons hr
    cases hv with
    | @cons _ v _ args hv hvs =>
      simp only [List.map_cons, List.cons.injEq] at ht
      obtain ⟨tv, ht⟩ := ht
      let r : Register := ⟨Symbol.parameter q.name, type⟩
      have hw₁ : Within F pool ((s.slot q.name type (.reg r)).params ps rs') := hw
      obtain ⟨code, ha⟩ := Lowering.params_adds ps rs' (s.slot q.name type (.reg r))
      obtain ⟨code', ha'⟩ := Lowering.slot_adds s q.name type (.reg r)
      have hv' : st.frame.registers.lookup r.name = some (encode v) := hv
      have hx : st.frame.operand image (.reg r) = .ok (encode v) := by
        simp only [Frame.operand, hv']
      have hne : ∀ r', Operand.reg r = .reg r' → r'.name ≠ Bytes.ofNat s.function.nextRegister := by
        rintro _ ⟨⟩
        exact Symbol.parameter_ne_ofNat _ _
      obtain ⟨st₁, hs₁, h₁, hk₁, hr₁⟩ :=
        hs.declare hl (hw₁.of_adds ha) (tv ▸ hty) hx hne false
      have hvs₁ : List.Forall₂ (fun r v ↦ st₁.frame.registers.lookup r.name = some (encode v))
          rs' args := by
        refine forall₂_imp_mem hvs fun r' hr'' v' hv' ↦ ?_
        have hm : r'.name ∈ ps.map fun q ↦ Symbol.parameter q.name := by
          rw [← paramRegisters_names hr']
          exact List.mem_map_of_mem hr''
        obtain ⟨q', -, hq'⟩ := List.mem_map.1 hm
        rw [hr₁ r'.name (hq' ▸ Symbol.parameter_ne_ofNat _ _), hv']
      obtain ⟨k, st₂, new, hs₂, h₂, hk₂, hf₂, hΓ⟩ := params_simulate hl ps hr' ht hvs₁ hw₁ h₁
      let slot : Slot := ⟨q.name, false, v.type, .reg (s.next (.ptr type)), st.memory.size⟩
      refine ⟨2 + k, st₂, new ++ [slot], hs₁.trans hs₂, ?_,
        hk₁.trans hk₂ ha'.register_le, ?_, ?_⟩
      · rw [List.append_assoc]
        have he : Semantics.entryEnv (q :: ps) (v :: args) ++ env =
            Semantics.entryEnv ps args ++ (q.name, v) :: env := by
          simp [Semantics.entryEnv]
        rw [he]
        exact h₂
      · intro x hx
        rcases List.mem_append.1 hx with hx | hx
        · exact Nat.le_trans hk₁.size (hf₂ x hx)
        · rw [List.mem_singleton] at hx
          subst hx
          exact Nat.le_refl _
      · rw [List.append_assoc]
        refine hΓ.trans ?_
        simp only [Typed.paramScope, List.map_cons, List.reverse_cons, List.append_assoc, ← tv]
        rfl

theorem step_entry {m : ModuleDraft} {st : State} {args : List Value}
    (hu : image.maxSteps ≤ 0) (hw : Within F pool ⟨m, .new F.name F.params F.result⟩)
    (hf : st.frame = .enter F args) (hc : Carries p pool image w st) :
    ∃ st', step image st = .running st' ∧
      Stands p pool image F ⟨m, .new F.name F.params F.result⟩ [] [] w st' ∧ Moves st st' := by
  obtain ⟨rest, hr⟩ := hw.body
  have hb : F.body = .label Draft.entry :: rest := hr.symm
  have ha : st.frame.ahead = .label Draft.entry :: rest := by
    rw [hf, ← hb]
    rfl
  refine ⟨_, step_unbounded hu ha, ⟨⟨?_, hb, rfl⟩, rfl, by simp, .nil, .nil, by simp,
    hc.congr rfl rfl⟩, rfl, rfl, rfl, rfl, rfl⟩
  change st.frame.function = F
  rw [hf]
  rfl

theorem step_ret {s : Site} {st : State} {x : Operand} {v : Value} (hu : image.maxSteps ≤ 0)
    (h : At F s st.frame) (hi : s.function.body ++ [.ret x] <+: F.body)
    (hx : st.frame.operand image x = .ok v) : step image st = (fetch st).leave v := by
  rw [step_eq hu h hi]
  simp only [State.execute, fetch_operand, hx]

theorem step_retVoid {s : Site} {st : State} (hu : image.maxSteps ≤ 0) (h : At F s st.frame)
    (hi : s.function.body ++ [.retVoid] <+: F.body) :
    step image st = (fetch st).leave .nothing := by
  rw [step_eq hu h hi]
  rfl

theorem leave_outermost {st : State} (h : st.callers = []) (v : Value) :
    st.leave v = .returned v { st with depth := st.depth - 1 } := by
  unfold State.leave
  split
  · rfl
  · rename_i hc
    rw [h] at hc
    cases hc

theorem Lowered.within {code : Lowering.Lower Unit} (h : Lowered pool F code)
    (hcode : ∀ {s s'}, code s = .ok ((), s') → ∃ added, Lowering.Adds s s' [] added) :
    ∃ m s, code ⟨m, .new F.name F.params F.result⟩ = .ok ((), s) ∧
      Within F pool s ∧ Within F pool ⟨m, .new F.name F.params F.result⟩ := by
  obtain ⟨m, s, hs, hb, hp, ha⟩ := h
  obtain ⟨added, hadds⟩ := hcode hs
  have hw : Within F pool s := by
    refine ⟨hb ▸ Lowering.labels_nodup hadds, hb ▸ List.prefix_rfl, hp, fun hc ↦ ha ?_⟩
    obtain ⟨texts, ht⟩ := hadds.module
    rw [ht] at hc
    exact hc
  exact ⟨m, s, hs, hw, hw.of_adds hadds⟩

theorem lookup_args {ps : List Typed.Param} {args : List Semantics.Value}
    (hps : paramRegisters ps = .ok F.params) (hn : (ps.map Typed.Param.name).Nodup)
    (ht : args.map Semantics.Value.type = ps.map Typed.Param.type) :
    List.Forall₂ (fun r v ↦
      (Frame.enter F (args.map encode)).registers.lookup r.name = some (encode v))
      F.params args := by
  have hnodup : (F.params.map Register.name).Nodup := by
    have hm : ps.map (fun q ↦ Symbol.parameter q.name) =
        (ps.map Typed.Param.name).map Symbol.parameter := by simp
    rw [paramRegisters_names hps, hm]
    exact hn.map fun _ _ ↦ Symbol.parameter_inj
  have hlen : F.params.length = (args.map encode).length := by
    have h₁ := congrArg List.length (paramRegisters_names hps)
    have h₂ := congrArg List.length ht
    simp only [List.length_map] at h₁ h₂ ⊢
    omega
  have he := lookup_enter [] hnodup hlen
  rw [List.forall₂_map_right_iff] at he
  exact he

/-- A function is about to return. -/
def Leaving (p : Typed.Program) (pool : List Bytes) (image : Image) (type : Option ValueType)
    (st : State) (result : Option Semantics.Value) (w' : Store) (st' : State) : Prop :=
  step image st' = (fetch st').leave (result.elim .nothing encode) ∧ Carries p pool image w' st' ∧
    Keeps image.globals.length 0 [] st st' ∧ result.map Semantics.Value.type = type

theorem body_simulates {call : Semantics.Call} {name : Bytes} {ps : List Typed.Param}
    {body : List Typed.Stmt} {r : Option Typed.Result} {args : List Semantics.Value} {st : State}
    (hl : Linked p pool image) (hcall : Calls p pool image call clock depth)
    (hlow : Lowered pool F (lowerBody ps F.params body r))
    (hps : paramRegisters ps = .ok F.params)
    (ht : Typed.Decl.WellTyped p.scope (.fun_ name ps body r))
    (hargs : args.map Semantics.Value.type = ps.map Typed.Param.type)
    (hf : st.frame = .enter F (args.map encode)) (hc : Carries p pool image w st)
    (hd : st.depth + 1 = depth) :
    Simulates image (Carries p pool image) (clock + 1) (.running st)
      ((Semantics.execStmts call clock (Semantics.entryEnv ps args) body >>=
        fun env ↦ Semantics.evalResult call env r) w)
      (Leaving p pool image (r.map Typed.Result.type) st) := by
  obtain ⟨hnames, -, htb, htr⟩ := ht
  obtain ⟨m, s, hs, hw, hw₀⟩ := hlow.within Lowering.lowerBody_adds
  obtain ⟨st₀, hs₀, h₀, hm₀⟩ := step_entry hl.unlimited hw₀ hf hc
  obtain ⟨s₁, hbody, hend⟩ := Lowering.lowerBody_ok hs
  have hregs : List.Forall₂ (fun r v ↦ st₀.frame.registers.lookup r.name = some (encode v))
      F.params args := by
    rw [hm₀.registers, hf]
    exact lookup_args hps hnames hargs
  have hw₁ : Within F pool s₁ := by
    rcases hend with ⟨-, he⟩ | ⟨value, x, s₂, -, hx, he⟩ <;> cases he
    · exact hw.mono (List.prefix_append _ _) rfl
    · obtain ⟨⟨a, ha⟩, -, -⟩ := Lowering.lowerExpr_yields value.value hx
      exact (hw.mono (s := s₂) (List.prefix_append _ _) rfl).of_adds ha
  obtain ⟨a, ha⟩ := (Lowering.lowerStmts_extends body hbody).adds
  obtain ⟨k, st₁, new, hs₁, h₁, hk₁, hf₁, hΓ₁⟩ :=
    params_simulate hl ps hps hargs hregs (hw₁.of_adds ha) h₀.enter
  simp only [List.append_nil] at h₁ hΓ₁
  have hk : Keeps image.globals.length 0 [] st st₁ :=
    (hm₀.keeps _ _ _).trans hk₁ (Nat.zero_le _)
  have htb' : Typed.Stmt.AllWellTyped (scopeOf p new) body := hΓ₁ ▸ htb
  refine .step_succ ⟨w, hc⟩ ?_
  rw [hs₀]
  refine .clock_le (.after hs₁ ?_) (Nat.le_add_left _ _)
  apply (lowerStmts_simulates hl hcall body hbody htb' hw₁ (hk.depth ▸ hd) h₁).bind
  intro env₂ w₂ st₂ hq
  obtain ⟨new₂, h₂, hk₂, hf₂, hΓ₂⟩ := hq
  have hk' : Keeps image.globals.length 0 [] st st₂ := by
    refine hk.trans_new (by simpa using hk₂) (Nat.zero_le _) fun b hb ↦ ?_
    obtain ⟨x, hx, rfl⟩ := List.mem_map.1 hb
    rw [← hm₀.memory]
    exact hf₁ x hx
  rcases hend with ⟨rfl, he⟩ | ⟨value, x, s₂, rfl, hx, he⟩ <;> cases he
  · exact .ok ⟨step_retVoid hl.unlimited h₂.control hw.body, h₂.store, hk', rfl⟩
  · have hw₂ : Within F pool s₂ := hw.mono (List.prefix_append _ _) rfl
    obtain ⟨htv, hty⟩ := htr value rfl
    rw [← show scopeOf p [] = p.scope from rfl, ← hΓ₁, ← hΓ₂] at htv
    simp only [Semantics.evalResult]
    apply (lowerExpr_simulates hl hcall value.value hx htv hw₂ (hk'.depth ▸ hd) h₂).bind
    intro v w₃ st₃ hq
    obtain ⟨h₃, hk₃, hv, tv⟩ := hq
    refine .ok ⟨step_ret hl.unlimited h₃.control hw.body hv, h₃.store, ?_, ?_⟩
    · exact hk'.trans hk₃ (Nat.zero_le _)
    · exact congrArg some (tv.trans hty)

/-- Calls agree at every depth, by induction on the clock: the calls that a body makes have less of
it left. -/
theorem calls_simulate (hl : Linked p pool image) (clock depth : Nat) :
    Calls p pool image (Semantics.call p image.maxDepth clock depth) clock depth := by
  induction clock generalizing depth with
  | zero => exact fun {_ _ _ _ _ _} _ _ _ _ _ k hk ↦ absurd hk (Nat.not_lt_zero k)
  | succ clock ih =>
    intro name params result args w st i hb ht hc hd
    obtain ⟨ps, body, r, hf, hps, hr, hwt⟩ := exists_function hl.typed hb
    obtain ⟨F, hF, hparams, hlow⟩ := hl.functions hf
    have hargs : args.map Semantics.Value.type = ps.map Typed.Param.type := ht.trans hps.symm
    have hlen : (args.map encode).length = F.params.length := by
      have h₁ := congrArg List.length (paramRegisters_names hparams)
      have h₂ := congrArg List.length hargs
      simp only [List.length_map] at h₁ h₂ ⊢
      omega
    simp only [State.call, hF, hlen, ne_eq, not_true_eq_false, if_false, Semantics.call, hf]
    by_cases hlim : image.maxDepth < depth
    · have hlim' : st.depth ≥ image.maxDepth := by omega
      simp only [hlim, hlim', if_true]
      exact .trap rfl (hc.congr rfl rfl)
    · have hlim' : ¬st.depth ≥ image.maxDepth := by omega
      simp only [hlim, hlim', if_false]
      let inner : State :=
        { st with
          depth := st.depth + 1
          frame := .enter F (args.map encode)
          callers := (st.frame, i) :: st.callers }
      have hd' : inner.depth + 1 = (depth + 1 : Nat) := by
        change st.depth + 1 + 1 = _
        omega
      have hc' : Carries p pool image w inner := hc.congr rfl rfl
      apply (body_simulates hl (ih (depth + 1)) hlow hparams hwt hargs rfl hc' hd').extend
      intro v w' st' hq
      obtain ⟨hs, hcarry, hk, hv⟩ := hq
      have hcallers : (fetch st').callers = (st.frame, i) :: st.callers := hk.callers
      have hdepth : st'.depth - 1 = st.depth := by
        rw [hk.depth]
        exact Int.add_sub_cancel st.depth 1
      have hleave : step image st' = .running { fetch st' with
          depth := st'.depth - 1
          frame := st.frame.finish i (v.elim .nothing encode)
          callers := st.callers } := by
        rw [hs, State.leave, hcallers]
        rfl
      refine ⟨1, _, .one ⟨w', hcarry⟩ hleave, hcarry.congr rfl rfl, ⟨rfl, hk.size, fun b hg hb ↦ ?_,
        rfl, hdepth⟩, hv.trans hr⟩
      exact hk.memory b hg hb List.not_mem_nil

theorem main_simulates {st : State} (hl : Linked p pool image)
    (hlow : Lowered pool F (lowerMainBody p.main)) (hf : st.frame = .enter F [])
    (hc : Carries p pool image w st) (hd : st.depth = 1) (hcallers : st.callers = []) :
    Simulates image (Carries p pool image) clock (.running st)
      (Semantics.execStmt (Semantics.call p image.maxDepth clock 2) clock [] p.main w)
      fun _ w' st' ↦ Carries p pool image w' st' ∧
        ∃ st'', step image st' = .returned (encode (.int 0)) st'' ∧ st''.memory = st'.memory ∧
          st''.output = st'.output := by
  obtain ⟨m, s, hs, hw, hw₀⟩ := hlow.within Lowering.lowerMainBody_adds
  obtain ⟨st₀, hs₀, h₀, hm₀⟩ := step_entry hl.unlimited hw₀ hf hc
  obtain ⟨s₁, hbody, he⟩ := Lowering.lowerMainBody_ok hs
  cases he
  have hw₁ : Within F pool s₁ := hw.mono (List.prefix_append _ _) rfl
  have hd₀ : st₀.depth + 1 = (2 : Nat) := by
    rw [hm₀.depth, hd]
    rfl
  refine .step ⟨w, hc⟩ ?_
  rw [hs₀]
  have ht : p.main.WellTyped (scopeOf p []) := hl.typed.main
  apply (lowerStmt_simulates hl (calls_simulate hl clock 2) p.main hbody ht hw₁ hd₀
    h₀.enter).mono
  intro env w' st' hq
  obtain ⟨new, h₁, hk₁, -, -⟩ := hq
  refine ⟨h₁.store, { fetch st' with depth := st'.depth - 1 }, ?_, rfl, rfl⟩
  have hcallers : (fetch st').callers = [] := hk₁.callers.trans (hm₀.callers.trans hcallers)
  have hi : s₁.function.body ++ [.ret (.const (.int32 0))] <+: F.body := hw.body
  rw [step_ret hl.unlimited h₁.control hi rfl, leave_outermost hcallers]
  rfl

end PZero.Refinement
