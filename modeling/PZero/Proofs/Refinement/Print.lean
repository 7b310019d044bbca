import PZero.Proofs.Refinement.Expr

namespace PZero.Refinement

open IR Machine
open Lowering (Site lowerExpr lowerPrint lowerPrints)
open Semantics (Store Env evalExpr printArg printArgs stringText)

variable {p : Typed.Program} {pool : List Bytes} {image : Image} {F : Function} {s s' : Site}
  {slots : List Slot} {env : Env} {w : Store} {st : State} {call : Semantics.Call}
  {clock depth : Nat}

theorem library_int (memory : Memory) (n : BitVec 32) :
    library memory Library.printInt [encode (.int n)] =
      .ok (Semantics.Value.text (.int n)) := by
  have hb : n.toInt.bmod 0x100000000 = n.toInt := by
    have hl := BitVec.le_toInt n
    have hu := BitVec.toInt_lt (x := n)
    exact Int.bmod_eq_of_le (by omega) (by omega)
  simp only [library, encode, Value.number, hb]
  rfl

theorem library_float (memory : Memory) (bits : UInt64) :
    library memory Library.printFloat [encode (.float bits)] =
      .ok (Semantics.Value.text (.float bits)) := rfl

theorem library_bool (memory : Memory) (b : Bool) :
    ∃ v, widen (encode (.bool b)) (.int 8) = .ok v ∧
      library memory Library.printBool [v] = .ok (Semantics.Value.text (.bool b)) := by
  cases b <;> exact ⟨_, rfl, rfl⟩

theorem number_byte (b : UInt8) : (Value.ofInt 8 b.toNat).number % 256 = b.toNat := by
  have hlt := b.toNat_lt
  have hkeep : canonical 8 b.toNat = Int.bmod b.toNat 256 := canonical_eq_bmod 8 _
  simp only [Value.ofInt, Value.number, hkeep, Int.bmod]
  split <;> omega

theorem byte_eq_zero (b : UInt8) : (Value.ofInt 8 b.toNat).number = 0 ↔ b = 0 := by
  have hn := number_byte b
  have hz : b = 0 ↔ b.toNat = 0 := UInt8.toNat_inj.symm
  rw [hz]
  constructor
  · intro h
    rw [h] at hn
    omega
  · intro h
    simp only [h]
    rfl

theorem takeWhile_stringCells (text : Bytes) :
    (stringCells text).takeWhile (fun v ↦ decide (v.number ≠ 0)) =
      (stringText text).map fun b ↦ Value.ofInt 8 b.toNat := by
  unfold stringCells stringText
  induction text with
  | nil => rfl
  | cons b text ih =>
    by_cases hb : b = 0
    · have hz : (Value.ofInt 8 0).number = 0 := rfl
      simp [hb, hz]
    · have hn : (Value.ofInt 8 b.toNat).number ≠ 0 := fun h ↦ hb ((byte_eq_zero b).1 h)
      simpa [hb, hn] using ih

theorem readString_eq {memory : Memory} {b : Nat} {name text : Bytes}
    (h : memory[b]? = some ⟨name, true, (stringCells text).toArray⟩) :
    memory.readString (.ptr (some b) 0) = .ok (stringText text) := by
  have hlen : (stringText text).length < (stringCells text).length := by
    have hle := (List.takeWhile_sublist (l := text) (· != 0)).length_le
    simp only [stringText, stringCells, List.length_append, List.length_map, List.length_singleton]
    omega
  have hsize : (0 : Int) ≤ 0 ∧ (0 : Int) < ((stringCells text).toArray.size : Int) := by
    rw [List.size_toArray]
    omega
  have hback : (stringText text).map
      ((fun v ↦ UInt8.ofNat (v.number % 256).toNat) ∘ fun b ↦ Value.ofInt 8 b.toNat) =
        stringText text := by
    conv_rhs => rw [← List.map_id (stringText text)]
    refine List.map_congr_left fun b _ ↦ ?_
    simp [number_byte]
  simp only [Memory.readString, Memory.locate, h, hsize, and_self, if_true, bind, Except.bind,
    Int.toNat_zero, List.drop_zero, takeWhile_stringCells, List.length_map]
  rw [if_neg (Nat.ne_of_lt hlen), List.map_map, hback]
  rfl

theorem Stands.print {callee text : Bytes} {xs : List Operand} {vs : List Value}
    (hl : Linked p pool image) (h : Stands p pool image F s slots env w st)
    (hw : Within F pool (s.emit (.callVoid callee xs))) (hn : callee ∈ Library.names)
    (hx : st.frame.operands image xs = .ok vs) (ht : library st.memory callee vs = .ok text) :
    Simulates image (Carries p pool image) clock (.running st) (Semantics.emit text w)
      fun _ w' st' ↦ Stands p pool image F (s.emit (.callVoid callee xs)) slots env w' st' ∧
        Keeps image.globals.length s.function.nextRegister [] st st' := by
  have hi : s.function.body ++ [.callVoid callee xs] <+: F.body := hw.body
  obtain ⟨hf, he⟩ := hl.library callee hn
  have ht' : library (fetch st).memory callee vs = .ok text := ht
  have hk : Keeps image.globals.length s.function.nextRegister [] st
      { fetch st with output := st.output ++ text } :=
    ⟨fun _ _ ↦ rfl, Nat.le_refl _, fun _ _ _ _ ↦ rfl, rfl, rfl⟩
  have hout : (st.output ++ text).toList = w.output ++ text := by
    rw [Array.toList_appendList, h.store.output]
  refine .step ⟨w, h.store⟩ ?_
  rw [step_call hl.unlimited h.control hi hx (.inr rfl)]
  simp only [State.call, hf, he, if_true, ht']
  refine .ok ⟨h.keep hk ?_ rfl (h.below_le (Nat.le_refl _)) ?_, hk⟩
  · exact h.control.next rfl rfl hi rfl rfl rfl
  · exact ⟨h.store.size, h.store.vars, h.store.strings, hout⟩

theorem computes_zext {memory : Memory} {frame : Frame} {x : Operand} {a v : Value}
    {dst : Register} {target : Ty} (hx : frame.operand image x = .ok a)
    (hv : widen a target = .ok v) :
    Computes image memory frame (.ok v) (.zext dst x target) := by
  refine ⟨?_, fun st ↦ rfl⟩
  simp only [effect, hx, hv, bind, Except.bind]
  rfl

theorem computes_gep {memory : Memory} {frame : Frame} {b : Nat} {dst : Register} {text : Bytes}
    {c : Constant} (hx : frame.operand image (.const c) = .ok (.ptr (some b) 0)) :
    Computes image memory frame (.ok (.ptr (some b) 0))
      (.gep dst true (Constant.cString text).type (.const c)
        [.const (.int32 0), .const (.int32 0)]) := by
  refine ⟨?_, fun st ↦ rfl⟩
  simp only [effect, hx, bind, Except.bind]
  simp [Frame.operands, Frame.operand, Image.constant, Constant.int32, integer, isWidth, address,
    follow, Constant.cString, Constant.type, word, Value.number, Value.ofInt, canonical_eq_bmod,
    bind, Except.bind, pure, Except.pure, Except.map]

theorem printArg_of_wellTyped {Γ : Typing.Scope} {e : Typed.Expr} (h : e.WellTyped Γ) :
    printArg call env e = evalExpr call env e >>= fun v ↦ Semantics.emit v.text := by
  cases e with
  | literal value =>
    cases value with
    | string text => exact absurd h (by simp [Typed.Expr.WellTyped, Typed.Literal.IsScalar])
    | _ => rfl
  | _ => rfl

theorem operands_one {frame : Frame} {x : Operand} {v : Value}
    (h : frame.operand image x = .ok v) : frame.operands image [x] = .ok [v] := by
  simp only [Frame.operands, h, bind, Except.bind]
  rfl

theorem Evaluated.print {s₁ : Site} {callee : Bytes} {x : Operand} {type : ValueType}
    {v : Semantics.Value} {w₁ : Store} {st₁ : State}
    (h : Evaluated p pool image F s s₁ slots env st x type v w₁ st₁) (hl : Linked p pool image)
    (hw : Within F pool (s₁.emit (.callVoid callee [x]))) (hn : callee ∈ Library.names)
    (ht : library st₁.memory callee [encode v] = .ok v.text)
    (hr : s.function.nextRegister ≤ s₁.function.nextRegister) :
    Simulates image (Carries p pool image) clock (.running st₁) (Semantics.emit v.text w₁)
      fun _ w' st' ↦ Stands p pool image F (s₁.emit (.callVoid callee [x])) slots env w' st' ∧
        Keeps image.globals.length s.function.nextRegister [] st st' := by
  obtain ⟨h₁, hk₁, hv, -⟩ := h
  apply (h₁.print hl hw hn (operands_one hv) ht).mono
  intro _ w₂ st₂ hq
  obtain ⟨h₂, hk₂⟩ := hq
  exact ⟨h₂, hk₁.trans hk₂ hr⟩

theorem lowerPrint_simulates {value : Typed.Expr} (hl : Linked p pool image)
    (hcall : Calls p pool image call clock depth) (h : lowerPrint value s = .ok ((), s'))
    (ht : value.WellTyped (scopeOf p slots)) (hw : Within F pool s')
    (hd : st.depth + 1 = depth) (hs : Stands p pool image F s slots env w st) :
    Simulates image (Carries p pool image) clock (.running st) (printArg call env value w)
      fun _ w' st' ↦ Stands p pool image F s' slots env w' st' ∧
        Keeps image.globals.length s.function.nextRegister [] st st' := by
  simp only [lowerPrint, Lowering.Lower.bind_ok] at h
  obtain ⟨x, s₁, hx, h⟩ := h
  obtain ⟨⟨a, ha⟩, -, -⟩ := Lowering.lowerExpr_yields value hx
  have hn := ha.register_le
  rw [printArg_of_wellTyped ht]
  cases htype : value.type <;>
    simp only [htype, Lowering.Lower.define_bind, Lowering.Lower.emit_ok, Lowering.Lower.throw_ok,
      Prod.mk.injEq, true_and] at h <;> subst h
  case bool =>
    have hw₁ : Within F pool (s₁.define (.int 8) (.zext · x (.int 8))) :=
      hw.mono (List.prefix_append _ _) rfl
    apply (lowerExpr_simulates hl hcall value hx ht hw₁.of_define hd hs).bind
    intro v w₁ st₁ hq
    obtain ⟨h₁, hk₁, hv, tv⟩ := hq
    obtain ⟨b, rfl⟩ := exists_bool (tv.trans htype)
    have hv' : (fetch st₁).frame.operand image x = .ok (encode (.bool b)) := by
      rw [fetch_operand, hv]
    obtain ⟨u, hu, -⟩ := library_bool st₁.memory b
    obtain ⟨st₂, hs₂, h₂, hk₂, hv₂⟩ := h₁.define hl hw₁ rfl (computes_zext hv' hu)
    refine .step ⟨w₁, h₁.store⟩ ?_
    rw [hs₂]
    obtain ⟨u', hu', hlib'⟩ := library_bool st₂.memory b
    obtain rfl : u = u' := Except.ok.inj (hu.symm.trans hu')
    apply (h₂.print hl hw (by decide) (operands_one hv₂) hlib').mono
    intro _ w₂ st₃ hq
    obtain ⟨h₃, hk₃⟩ := hq
    exact ⟨h₃, (hk₁.trans hk₂ hn).trans hk₃ (Nat.le_succ_of_le hn)⟩
  case int =>
    have hw₁ : Within F pool s₁ := hw.mono (List.prefix_append _ _) rfl
    apply (lowerExpr_simulates hl hcall value hx ht hw₁ hd hs).bind
    intro v w₁ st₁ hq
    obtain ⟨n, rfl⟩ := exists_int (hq.2.2.2.trans htype)
    exact hq.print hl hw (by decide) (library_int _ n) hn
  case float =>
    have hw₁ : Within F pool s₁ := hw.mono (List.prefix_append _ _) rfl
    apply (lowerExpr_simulates hl hcall value hx ht hw₁ hd hs).bind
    intro v w₁ st₁ hq
    obtain ⟨bits, rfl⟩ := exists_float (hq.2.2.2.trans htype)
    exact hq.print hl hw (by decide) (library_float _ bits) hn
  case string =>
    have hw₁ : Within F pool s₁ := hw.mono (List.prefix_append _ _) rfl
    apply (lowerExpr_simulates hl hcall value hx ht hw₁ hd hs).bind
    intro v w₁ st₁ hq
    obtain ⟨h₁, hk₁, hv, tv⟩ := hq
    cases v <;> cases tv.trans htype

theorem lowerPrint_string_simulates {text : Bytes} (hl : Linked p pool image)
    (h : lowerPrint (.literal (.string text)) s = .ok ((), s')) (hw : Within F pool s')
    (hs : Stands p pool image F s slots env w st) :
    Simulates image (Carries p pool image) clock (.running st)
      (printArg call env (.literal (.string text)) w)
      fun _ w' st' ↦ Stands p pool image F s' slots env w' st' ∧
        Keeps image.globals.length s.function.nextRegister [] st st' := by
  obtain ⟨type, h⟩ := Lowering.lowerPrint_string_ok h
  cases h
  obtain ⟨n, texts, hi, hn⟩ := s.module.intern_eq text
  have hw₁ : Within F pool ((s.intern text).define type
      (.gep · true (Constant.cString text).type (.const (s.module.intern text).1)
        [.const (.int32 0), .const (.int32 0)])) :=
    hw.mono (List.prefix_append _ _) rfl
  have hm : (s.intern text).module = s.module.withPool texts := congrArg Prod.snd hi
  have hpool : pool[n]? = some text := by
    have hp : (s.module.withPool texts).pool <+: pool := hm ▸ hw.pool
    obtain ⟨rest, rfl⟩ := hp
    rw [List.getElem?_append_left (List.getElem?_eq_some_iff.1 hn).1, hn]
  obtain ⟨b, name, hb, hcells⟩ := hs.store.strings hpool
  have hc : (fetch st).frame.operand image (.const (s.module.intern text).1) =
      .ok (.ptr (some b) 0) := by
    rw [hi]
    exact operand_global hb
  have hs' : Stands p pool image F (s.intern text) slots env w st :=
    hs.move ⟨rfl, rfl, rfl, rfl, rfl⟩ ⟨hs.control.function, hs.control.body, hs.control.current⟩ rfl
      hs.below
  obtain ⟨st₁, hs₁, h₁, hk₁, hv₁⟩ := hs'.define hl hw₁ rfl (computes_gep hc)
  obtain ⟨b', name', hb', hcells'⟩ := h₁.store.strings hpool
  obtain rfl : b = b' := Option.some.inj (hb.symm.trans hb')
  have hlib : library st₁.memory Library.printString [.ptr (some b) 0] = .ok (stringText text) := by
    change st₁.memory.readString (.ptr (some b) 0) = _
    exact readString_eq hcells'
  refine .step ⟨w, hs.store⟩ ?_
  rw [hs₁]
  apply (h₁.print hl hw (by decide) (operands_one hv₁) hlib).mono
  intro _ w₂ st₂ hq
  obtain ⟨h₂, hk₂⟩ := hq
  exact ⟨h₂, hk₁.trans hk₂ (Nat.le_succ _)⟩

theorem lowerPrints_simulates (hl : Linked p pool image)
    (hcall : Calls p pool image call clock depth) : ∀ (es : List Typed.Expr) {s s' : Site}
    {w : Store} {st : State}, lowerPrints es s = .ok ((), s') →
      (∀ e ∈ es, e.Printable (scopeOf p slots)) → Within F pool s' →
      st.depth + 1 = depth → Stands p pool image F s slots env w st →
      Simulates image (Carries p pool image) clock (.running st) (printArgs call env es w)
        fun _ w' st' ↦ Stands p pool image F s' slots env w' st' ∧
          Keeps image.globals.length s.function.nextRegister [] st st'
  | [], s, s', w, st, h, ht, hw, hd, hs => by
    simp only [lowerPrints, Lowering.Lower.pure_ok, Prod.mk.injEq, true_and] at h
    subst h
    exact .ok ⟨hs, Keeps.refl _ _ _ _⟩
  | e :: es, s, s', w, st, h, ht, hw, hd, hs => by
    simp only [lowerPrints, Lowering.Lower.bind_ok] at h
    obtain ⟨_, s₁, he, hes⟩ := h
    obtain ⟨⟨a, ha⟩, -⟩ := Lowering.lowerPrint_yields he
    obtain ⟨⟨b, hb⟩, -⟩ := Lowering.lowerPrints_yields es hes
    have hw₁ := hw.of_adds hb
    simp only [printArgs]
    have hfirst : Simulates image (Carries p pool image) clock (.running st)
        (printArg call env e w) fun _ w' st' ↦ Stands p pool image F s₁ slots env w' st' ∧
          Keeps image.globals.length s.function.nextRegister [] st st' := by
      rcases ht e List.mem_cons_self with hte | ⟨text, rfl⟩
      · exact lowerPrint_simulates hl hcall he hte hw₁ hd hs
      · exact lowerPrint_string_simulates hl he hw₁ hs
    apply hfirst.bind
    intro _ w₁ st₁ hq
    obtain ⟨h₁, hk₁⟩ := hq
    apply (lowerPrints_simulates hl hcall es hes (fun e he ↦ ht e (List.mem_cons_of_mem _ he)) hw
      (hk₁.depth ▸ hd) h₁).mono
    intro _ w₂ st₂ hq
    obtain ⟨h₂, hk₂⟩ := hq
    exact ⟨h₂, hk₁.trans hk₂ ha.register_le⟩

end PZero.Refinement
