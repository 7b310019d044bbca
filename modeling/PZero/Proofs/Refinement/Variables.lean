import PZero.Proofs.Refinement.Steps
import PZero.Proofs.Typing.Scope

namespace PZero.Refinement

open IR Machine
open Lowering (Site typeOf)
open Semantics (Store Env update?)
open Typing (valueBinding valueBinding_inj)

variable {p : Typed.Program} {pool : List Bytes} {image : Image} {F : Function} {s s' : Site}
  {slots : List Slot} {env : Env} {w : Store} {st st' : State} {name : Bytes}
  {v : Semantics.Value}

theorem lookup_map {α β : Type} (f : α → Bytes) (g : α → β) (name : Bytes) (xs : List α) :
    (xs.map fun x ↦ (f x, g x)).lookup name = (xs.find? fun x ↦ f x == name).map g := by
  induction xs with
  | nil => rfl
  | cons x xs ih =>
    rw [List.map_cons, List.lookup_cons, List.find?_cons, BEq.comm, ih]
    cases f x == name <;> rfl

theorem get_store (w : Store) : (get : Semantics.Eval Store) w = .ok w w := rfl

theorem read_global (hl : env.lookup name = none) (hg : w.globals.lookup name = some v) :
    Semantics.read env name w = .ok v w := by
  simp only [Semantics.read, hl, bind, EStateM.bind, get_store, hg]
  rfl

theorem assign_global {globals : Env} (hl : update? name v env = none)
    (hg : update? name v w.globals = some globals) :
    Semantics.assign env name v w = .ok env { w with globals } := by
  simp only [Semantics.assign, hl, bind, EStateM.bind, get_store, hg]
  rfl

theorem find_slot (h : List.Forall₂ (Slot.Holds image st) slots env) (name : Bytes) :
    (slots.find? (fun x ↦ x.name == name) = none ∧ env.lookup name = none ∧
        ∀ v, update? name v env = none) ∨
      ∃ slot v, slots.find? (fun x ↦ x.name == name) = some slot ∧ env.lookup name = some v ∧
        slot.Holds image st (name, v) := by
  induction h with
  | nil => exact .inl ⟨rfl, rfl, fun _ ↦ rfl⟩
  | @cons x e slots env hx _ ih =>
    obtain ⟨other, held⟩ := e
    obtain rfl : other = x.name := hx.name
    by_cases hn : x.name = name
    · refine .inr ⟨x, held, ?_, ?_, ?_⟩
      · simp [hn]
      · simp [hn]
      · rw [← hn]
        exact hx
    · have hn' : (x.name == name) = false := by simpa using hn
      have hn'' : (name == x.name) = false := by simpa using fun e ↦ hn e.symm
      simp only [List.find?_cons, hn', List.lookup_cons, hn'', update?, hn, if_false,
        Option.map_eq_none_iff]
      exact ih

theorem update_slots {slot : Slot} (h : List.Forall₂ (Slot.Holds image st) slots env)
    (hf : slots.find? (fun x ↦ x.name == name) = some slot) (hd : (slots.map Slot.block).Nodup)
    (hs : slot.Holds image st' (name, v))
    (ho : ∀ x ∈ slots, x.block ≠ slot.block → ∀ e, x.Holds image st e → x.Holds image st' e) :
    ∃ env', update? name v env = some env' ∧ List.Forall₂ (Slot.Holds image st') slots env' := by
  induction h with
  | nil => simp at hf
  | @cons x e slots env hx hxs ih =>
    obtain ⟨other, held⟩ := e
    obtain rfl : other = x.name := hx.name
    rw [List.map_cons, List.nodup_cons] at hd
    by_cases hn : x.name = name
    · rw [List.find?_cons_of_pos (by simpa using hn), Option.some.injEq] at hf
      subst hf
      refine ⟨(x.name, v) :: env, by simp [update?, hn], .cons (hn ▸ hs) ?_⟩
      refine forall₂_imp_mem hxs fun y hy e hye ↦ ho y (List.mem_cons_of_mem _ hy) (fun he ↦ ?_)
        e hye
      exact hd.1 (he ▸ List.mem_map_of_mem hy)
    · rw [List.find?_cons_of_neg (by simpa using hn)] at hf
      have hm := List.mem_of_find?_eq_some hf
      obtain ⟨env', hu, henv⟩ := ih hf hd.2 fun y hy ↦ ho y (List.mem_cons_of_mem _ hy)
      refine ⟨(x.name, held) :: env', by simp [update?, hn, hu], .cons ?_ henv⟩
      refine ho x List.mem_cons_self (fun he ↦ ?_) _ hx
      exact hd.1 (he ▸ List.mem_map_of_mem hm)

theorem lookup_update {globals : Env} {old : Semantics.Value} (h : globals.lookup name = some old) :
    ∃ globals', update? name v globals = some globals' ∧ globals'.lookup name = some v ∧
      ∀ other, other ≠ name → globals'.lookup other = globals.lookup other := by
  induction globals with
  | nil => simp at h
  | cons e globals ih =>
    obtain ⟨held, u⟩ := e
    by_cases hn : held = name
    · subst hn
      refine ⟨(held, v) :: globals, by simp [update?], by simp, fun other ho ↦ ?_⟩
      have ho' : (other == held) = false := by simpa using ho
      simp [List.lookup_cons, ho']
    · have hn' : (name == held) = false := by simpa using fun e ↦ hn e.symm
      rw [List.lookup_cons, hn'] at h
      obtain ⟨globals', hu, hv, ho⟩ := ih h
      refine ⟨(held, u) :: globals', by simp [update?, hn, hu], ?_, fun other hother ↦ ?_⟩
      · rw [List.lookup_cons, hn', hv]
      · rw [List.lookup_cons, List.lookup_cons, ho other hother]

/-- A name in scope has a slot, or else it is a global. -/
theorem Stands.place {x : Operand} {binding : Typing.Binding}
    (h : Stands p pool image F s slots env w st) (hw : Within F pool s)
    (hx : s.function.operand name s.module = .ok x)
    (hb : (scopeOf p slots).lookup name = some binding) :
    (∃ slot, slots.find? (fun y ↦ y.name == name) = some slot ∧ x = slot.address ∧
        binding = valueBinding slot.isConst slot.type) ∨
      slots.find? (fun y ↦ y.name == name) = none ∧ p.scope.lookup name = some binding ∧
        ∃ type, x = .const (.global name type) := by
  unfold Draft.operand at hx
  rw [Typing.findSome?_lookup, h.scopes, lookup_map] at hx
  rw [scopeOf, List.lookup_append, lookup_map] at hb
  cases hf : slots.find? fun y ↦ y.name == name with
  | some slot =>
    simp only [hf, Option.map_some, Except.ok.injEq, Option.some_or, Option.some.injEq] at hx hb
    exact .inl ⟨slot, rfl, hx.symm, hb.symm⟩
  | none =>
    simp only [hf, Option.map_none, Option.none_or] at hx hb
    cases ha : s.module.address? name with
    | none => simp [ha] at hx
    | some c =>
      simp only [ha, Except.ok.injEq] at hx
      obtain ⟨type, rfl⟩ := hw.addresses ha
      exact .inr ⟨rfl, hb, type, hx.symm⟩

theorem operand_global {frame : Frame} {b : Nat} {type : Ty}
    (h : image.globals.lookup name = some b) :
    frame.operand image (.const (.global name type)) = .ok (.ptr (some b) 0) := by
  simp only [Frame.operand, Image.constant, h]

theorem Stands.slot_of_find {slot : Slot} (h : Stands p pool image F s slots env w st)
    (hf : slots.find? (fun y ↦ y.name == name) = some slot) :
    ∃ v, env.lookup name = some v ∧ slot.Holds image st (name, v) := by
  rcases find_slot h.held name with ⟨hn, -, -⟩ | ⟨slot', v, hf', hl, hs⟩
  · simp [hf] at hn
  · obtain rfl : slot = slot' := Option.some.inj (hf.symm.trans hf')
    exact ⟨v, hl, hs⟩

theorem Stands.no_slot (h : Stands p pool image F s slots env w st)
    (hf : slots.find? (fun y ↦ y.name == name) = none) :
    env.lookup name = none ∧ ∀ v, update? name v env = none := by
  rcases find_slot h.held name with ⟨-, hn⟩ | ⟨slot, v, hf', -, -⟩
  · exact hn
  · simp [hf] at hf'

theorem Stands.read {x : Operand} {isConst : Bool} {type : ValueType}
    (h : Stands p pool image F s slots env w st) (hw : Within F pool s)
    (hx : s.function.operand name s.module = .ok x)
    (hb : (scopeOf p slots).lookup name = some (valueBinding isConst type)) :
    ∃ v b c, st.frame.operand image x = .ok (.ptr (some b) 0) ∧ Cell st.memory b c (encode v) ∧
      v.type = type ∧ Semantics.read env name w = .ok v w := by
  rcases h.place hw hx hb with ⟨slot, hf, rfl, hv⟩ | ⟨hf, hg, ty, rfl⟩
  · obtain ⟨v, hl, hs⟩ := h.slot_of_find hf
    refine ⟨v, slot.block, false, hs.address, hs.cell, ?_, ?_⟩
    · exact hs.type.trans (valueBinding_inj hv).2.symm
    · simp only [Semantics.read, hl]
      rfl
  · obtain ⟨v, b, hv, ht, hi, hc⟩ := h.store.vars hg
    exact ⟨v, b, isConst, operand_global hi, hc, ht, read_global (h.no_slot hf).1 hv⟩

/-- The state after a store differs in one cell. -/
structure Stores (b : Nat) (v : Semantics.Value) (st st' : State) : Prop where
  registers : st'.frame.registers = st.frame.registers
  memory : st'.memory = st.memory.write b 0 (encode v)
  output : st'.output = st.output
  callers : st'.callers = st.callers
  depth : st'.depth = st.depth

namespace Stores

variable {b : Nat}

theorem getElem?_ne {b' : Nat} (h : Stores b v st st') (hb : b ≠ b') :
    st'.memory[b']? = st.memory[b']? := by
  rw [h.memory, Memory.getElem?_write_ne hb]

theorem size (h : Stores b v st st') : st'.memory.size = st.memory.size := by
  rw [h.memory, Memory.size_write]

theorem cell {c : Bool} {old : Value} (h : Stores b v st st') (hc : Cell st.memory b c old) :
    Cell st'.memory b c (encode v) := by
  rw [h.memory]
  exact hc.write (encode v)

theorem slot_holds {x : Slot} {e : Bytes × Semantics.Value} (h : Stores b v st st')
    (hx : x.Holds image st e) (hb : b ≠ x.block) : x.Holds image st' e :=
  ⟨hx.name, hx.type, (Frame.operand_congr h.registers x.address).trans hx.address,
    hx.cell.congr (h.getElem?_ne hb)⟩

theorem keeps {g n : Nat} {blocks : List Nat} (h : Stores b v st st') (hb : b < g ∨ b ∈ blocks) :
    Keeps g n blocks st st' where
  registers k _ := by rw [h.registers]
  size := Nat.le_of_eq h.size.symm
  memory b' hg _ hn := by
    refine h.getElem?_ne ?_
    rintro rfl
    rcases hb with hb | hb
    · omega
    · exact hn hb
  callers := h.callers
  depth := h.depth

theorem carries {globals : Env} (h : Stores b v st st') (hc : Carries p pool image w st)
    (hn : ∀ {n : Nat} {b'}, image.globals.lookup (Symbol.pooled n) = some b' → b ≠ b')
    (hv : ∀ {name isConst type}, p.scope.lookup name = some (valueBinding isConst type) →
      ∀ {b'}, image.globals.lookup name = some b' →
        b ≠ b' ∧ globals.lookup name = w.globals.lookup name ∨
          b = b' ∧ globals.lookup name = some v ∧ v.type = type) :
    Carries p pool image { w with globals } st' where
  size := by
    rw [h.size]
    exact hc.size
  vars hb := by
    obtain ⟨u, b', hu, ht, hi, hcell⟩ := hc.vars hb
    rcases hv hb hi with ⟨hne, hl⟩ | ⟨rfl, hl, htype⟩
    · exact ⟨u, b', hl.trans hu, ht, hi, hcell.congr (h.getElem?_ne hne)⟩
    · exact ⟨v, b, hl, htype, hi, h.cell hcell⟩
  strings ht := by
    obtain ⟨b', name, hi, hcell⟩ := hc.strings ht
    exact ⟨b', name, hi, (h.getElem?_ne (hn hi)).trans hcell⟩
  output := by rw [h.output, hc.output]

theorem carries_outside (h : Stores b v st st') (hl : Linked p pool image)
    (hc : Carries p pool image w st) (hb : image.globals.length ≤ b) :
    Carries p pool image w st' := by
  have hne : ∀ {name b'}, image.globals.lookup name = some b' → b ≠ b' := by
    intro name b' hi
    have := hl.bounded hi
    omega
  exact h.carries hc hne fun {_ _ _} _ {_} hi ↦ .inl ⟨hne hi, rfl⟩

end Stores

theorem Stands.assign {x : Operand} (hl : Linked p pool image)
    (h : Stands p pool image F s slots env w st) (hw : Within F pool s)
    (hx : s.function.operand name s.module = .ok x)
    (hb : (scopeOf p slots).lookup name = some (valueBinding false v.type)) :
    ∃ b old, st.frame.operand image x = .ok (.ptr (some b) 0) ∧ Cell st.memory b false old ∧
      ∀ {s' st'}, Stores b v st st' → At F s' st'.frame →
        s'.function.scopes.flatten = s.function.scopes.flatten →
        (∀ y ∈ slots, y.address.Below s'.function.nextRegister) →
        ∃ env' w', Semantics.assign env name v w = .ok env' w' ∧
          Stands p pool image F s' slots env' w' st' ∧
          Keeps image.globals.length s.function.nextRegister (slots.map Slot.block) st st' := by
  rcases h.place hw hx hb with ⟨slot, hf, rfl, hv⟩ | ⟨hf, hg, ty, rfl⟩
  · obtain ⟨u, -, hs⟩ := h.slot_of_find hf
    have hm := List.mem_of_find?_eq_some hf
    refine ⟨slot.block, encode u, hs.address, hs.cell, fun {s' st'} hst hc hsc hbelow ↦ ?_⟩
    have hself : slot.Holds image st' (name, v) :=
      ⟨hs.name, (valueBinding_inj hv).2, (Frame.operand_congr hst.registers _).trans hs.address,
        hst.cell hs.cell⟩
    obtain ⟨env', hu, henv⟩ := update_slots h.held hf h.distinct hself fun y _ hy e hye ↦
      hst.slot_holds hye hy.symm
    refine ⟨env', w, ?_, ?_, hst.keeps (.inr (List.mem_map_of_mem hm))⟩
    · simp only [Semantics.assign, hu]
      rfl
    · refine ⟨hc, hsc.trans h.scopes, hbelow, henv, h.distinct, h.outside, ?_⟩
      exact hst.carries_outside hl h.store (h.outside slot hm)
  · obtain ⟨u, b, hu, -, hi, hcell⟩ := h.store.vars hg
    refine ⟨b, encode u, operand_global hi, hcell, fun {s' st'} hst hc hsc hbelow ↦ ?_⟩
    obtain ⟨globals, hup, hself, hother⟩ := lookup_update (v := v) hu
    have hout : ∀ y ∈ slots, b ≠ y.block := by
      intro y hy
      have := hl.bounded hi
      have := h.outside y hy
      omega
    refine ⟨env, { w with globals }, assign_global ((h.no_slot hf).2 v) hup, ?_,
      hst.keeps (.inl (hl.bounded hi))⟩
    refine ⟨hc, hsc.trans h.scopes, hbelow, ?_, h.distinct, h.outside, ?_⟩
    · exact forall₂_imp_mem h.held fun y hy e hye ↦ hst.slot_holds hye (hout y hy)
    · refine hst.carries h.store (fun {n b'} hn he ↦ ?_) fun {other c type} hb' {b'} hi' ↦ ?_
      · subst he
        exact hl.apart hg n (hl.injective hi hn)
      · by_cases ho : other = name
        · subst ho
          obtain rfl : b = b' := Option.some.inj (hi.symm.trans hi')
          obtain ⟨-, rfl⟩ := valueBinding_inj (Option.some.inj (hg.symm.trans hb'))
          exact .inr ⟨rfl, hself, rfl⟩
        · refine .inl ⟨fun he ↦ ho ?_, hother other ho⟩
          subst he
          exact hl.injective hi' hi

theorem Carries.grow (h : Carries p pool image w st) (hs : st.memory.size ≤ st'.memory.size)
    (hm : ∀ b < st.memory.size, st'.memory[b]? = st.memory[b]?) (ho : st'.output = st.output) :
    Carries p pool image w st' where
  size := Nat.le_trans h.size hs
  vars hb := by
    obtain ⟨u, b, hu, ht, hi, hc⟩ := h.vars hb
    exact ⟨u, b, hu, ht, hi, hc.congr (hm b hc.lt_size)⟩
  strings ht := by
    obtain ⟨b, name, hi, hc⟩ := h.strings ht
    exact ⟨b, name, hi, (hm b (Array.getElem?_eq_some_iff.1 hc).1).trans hc⟩
  output := ho ▸ h.output

theorem fresh_scalar {type : ValueType} {ty : Ty} (h : typeOf type = .ok ty) (name : Bytes) :
    ∃ v, Block.fresh name false ty = .ok ⟨name, false, #[v]⟩ := by
  cases type <;> simp only [typeOf, Except.ok.injEq, reduceCtorEq] at h <;> subst h <;>
    exact ⟨_, rfl⟩

theorem Stands.alloca {ty : Ty} {type : ValueType} (hl : Linked p pool image)
    (h : Stands p pool image F s slots env w st)
    (hw : Within F pool (s.define (.ptr ty) (.alloca · ty))) (ht : typeOf type = .ok ty) :
    ∃ st' old, step image st = .running st' ∧
      Stands p pool image F (s.define (.ptr ty) (.alloca · ty)) slots env w st' ∧
      Keeps image.globals.length s.function.nextRegister [] st st' ∧
      (∀ name, name ≠ Bytes.ofNat s.function.nextRegister →
        st'.frame.registers.lookup name = st.frame.registers.lookup name) ∧
      st'.frame.operand image (.reg (s.next (.ptr ty))) = .ok (.ptr (some st.memory.size) 0) ∧
      Cell st'.memory st.memory.size false old := by
  let r := s.next (.ptr ty)
  obtain ⟨old, hf⟩ := fresh_scalar ht r.bare
  have hi : s.function.body ++ [.alloca r ty] <+: F.body := hw.body
  have hstep : step image st =
      .running ((fetch st).perform (.alloca r ty) (.allocate ⟨r.bare, false, #[old]⟩)) := by
    rw [step_eq hl.unlimited h.control hi]
    simp only [State.execute, effect, hf, bind, Except.bind]
    rfl
  have hmem : ∀ b < st.memory.size, (st.memory.push ⟨r.bare, false, #[old]⟩)[b]? = st.memory[b]? :=
    fun b hb ↦ by rw [Array.getElem?_push, if_neg (by omega)]
  have hreg : ∀ name, name ≠ Bytes.ofNat s.function.nextRegister →
      (Registers.set r.name (.ptr (some st.memory.size) 0) st.frame.registers).lookup name =
        st.frame.registers.lookup name :=
    fun name hne ↦ Registers.lookup_set_ne hne _ _
  have hsize : st.memory.size ≤ (st.memory.push ⟨r.bare, false, #[old]⟩).size := by
    rw [Array.size_push]
    exact Nat.le_succ _
  have hk : Keeps image.globals.length s.function.nextRegister [] st
      ((fetch st).perform (.alloca r ty) (.allocate ⟨r.bare, false, #[old]⟩)) := by
    refine ⟨fun k hk ↦ hreg _ fun he ↦ ?_, hsize, fun b _ hb _ ↦ hmem b hb, rfl, rfl⟩
    have := Bytes.ofNat_inj he
    omega
  refine ⟨_, old, hstep, ?_, hk, hreg, ?_, r.bare, ?_⟩
  · refine h.keep hk ?_ rfl (h.below_le (Nat.le_succ _)) (h.store.grow hsize hmem rfl)
    exact h.control.next rfl rfl hi rfl rfl rfl
  · exact Frame.operand_reg (Registers.lookup_set_self r.name _ _)
  · exact Array.getElem?_push_size

theorem Stands.declare {ty : Ty} {x : Operand} (hl : Linked p pool image)
    (h : Stands p pool image F s slots env w st) (hw : Within F pool (s.slot name ty x))
    (ht : typeOf v.type = .ok ty) (hx : st.frame.operand image x = .ok (encode v))
    (hr : ∀ r, x = .reg r → r.name ≠ Bytes.ofNat s.function.nextRegister) (isConst : Bool) :
    ∃ st', Leads image (Carries p pool image) 2 (.running st) (.running st') ∧
      Stands p pool image F (s.slot name ty x)
        (⟨name, isConst, v.type, .reg (s.next (.ptr ty)), st.memory.size⟩ :: slots)
        ((name, v) :: env) w st' ∧
      Keeps image.globals.length s.function.nextRegister [] st st' ∧
      ∀ name, name ≠ Bytes.ofNat s.function.nextRegister →
        st'.frame.registers.lookup name = st.frame.registers.lookup name := by
  let a : Operand := .reg (s.next (.ptr ty))
  let s₁ := s.define (.ptr ty) (.alloca · ty)
  have hslot : s.slot name ty x = (s₁.emit (.store x a)).bind name a := rfl
  have hbody : (s.slot name ty x).function.body = s₁.function.body ++ [.store x a] := by
    rw [hslot, Site.bind_body]
    rfl
  have hw₁ : Within F pool s₁ :=
    hw.of_adds (((Lowering.Adds.refl s₁).emit (.store x a) rfl).bind name a)
  obtain ⟨st₁, old, hs₁, h₁, hk₁, hr₁, ha, hc⟩ := h.alloca hl hw₁ ht
  have hx₁ : st₁.frame.operand image x = .ok (encode v) := by
    cases x with
    | reg r => simpa only [Frame.operand, hr₁ r.name (hr r rfl)] using hx
    | const c => exact hx
  obtain ⟨st₂, hs₂, hat, hreg, hmem, hout, hcallers, hdepth⟩ :=
    step_store hl.unlimited h₁.control (hbody ▸ hw.body) hx₁ ha hc
  have hst : Stores st.memory.size v st₁ st₂ := ⟨hreg, hmem, hout, hcallers, hdepth⟩
  have hfree : ∀ y ∈ slots, y.block < st.memory.size := by
    intro y hy
    obtain ⟨e, he⟩ := forall₂_exists h.held y hy
    exact he.cell.lt_size
  have hk₂ : Keeps image.globals.length s₁.function.nextRegister ([st.memory.size] ++ []) st₁ st₂ :=
    hst.keeps (.inr (List.mem_singleton_self _))
  refine ⟨st₂, ?_, ?_, hk₁.trans_new hk₂ (Nat.le_succ _) (by simp), fun n hn ↦ ?_⟩
  · exact .two ⟨w, h.store⟩ hs₁ ⟨w, h₁.store⟩ hs₂
  · refine ⟨⟨hat.function, ?_, ?_⟩, ?_, ?_, .cons ?_ ?_, ?_, ?_, ?_⟩
    · rw [hbody]
      exact hat.body
    · rw [hslot, Site.bind_current]
      exact hat.current
    · rw [hslot, Site.bind_scopes, List.map_cons]
      exact congrArg _ h₁.scopes
    · rw [hslot, Site.bind_nextRegister]
      intro y hy
      rcases List.mem_cons.1 hy with rfl | hy
      · exact ⟨s.function.nextRegister, Nat.lt_succ_self _, rfl⟩
      · exact h₁.below y hy
    · exact ⟨rfl, rfl, (Frame.operand_congr hreg a).trans ha, hst.cell hc⟩
    · refine forall₂_imp_mem h₁.held fun y hy e hye ↦ hst.slot_holds hye ?_
      exact Nat.ne_of_gt (hfree y hy)
    · rw [List.map_cons, List.nodup_cons]
      refine ⟨fun hm ↦ ?_, h.distinct⟩
      obtain ⟨y, hy, he⟩ := List.mem_map.1 hm
      exact Nat.ne_of_lt (hfree y hy) he
    · intro y hy
      rcases List.mem_cons.1 hy with rfl | hy
      · exact h.store.size
      · exact h.outside y hy
    · exact hst.carries_outside hl h₁.store h.store.size
  · rw [hreg, hr₁ n hn]

end PZero.Refinement
