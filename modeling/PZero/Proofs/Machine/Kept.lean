import PZero.Proofs.Machine.Advance
import PZero.Proofs.Machine.Canonical

namespace PZero.Machine

open IR

def Memory.IsCanonical (m : Memory) : Prop :=
  ∀ (b : Nat) (block : Block), m[b]? = some block → ∀ v ∈ block.cells.toList, v.IsCanonical

/-- What a block keeps of a block before it. -/
structure Block.Kept (before after : Block) : Prop where
  name : after.name = before.name
  isConst : after.isConst = before.isConst
  size : after.cells.size = before.cells.size
  contents : before.isConst = true → after.cells = before.cells

/-- Blocks stay where they are and are kept; others may be added behind them. -/
def Memory.Kept (before after : Memory) : Prop :=
  ∀ (b : Nat) (block : Block), before[b]? = some block →
    ∃ block', after[b]? = some block' ∧ block.Kept block'

theorem Block.Kept.refl (block : Block) : block.Kept block := ⟨rfl, rfl, rfl, fun _ ↦ rfl⟩

theorem Block.Kept.trans {a b c : Block} (h : a.Kept b) (h' : b.Kept c) : a.Kept c where
  name := h'.name.trans h.name
  isConst := h'.isConst.trans h.isConst
  size := h'.size.trans h.size
  contents hc := (h'.contents (h.isConst.trans hc)).trans (h.contents hc)

theorem Memory.Kept.refl (m : Memory) : m.Kept m := fun _ block h ↦ ⟨block, h, .refl block⟩

theorem Memory.Kept.trans {a b c : Memory} (h : a.Kept b) (h' : b.Kept c) : a.Kept c := by
  intro i block hi
  obtain ⟨block', hi', hk⟩ := h i block hi
  obtain ⟨block'', hi'', hk'⟩ := h' i block' hi'
  exact ⟨block'', hi'', hk.trans hk'⟩

section Memory

variable {m : Memory} {address v : Value} {b cell : Nat} {block : Block}

theorem locate_eq_ok (h : m.locate address = .ok (b, block, cell)) :
    m[b]? = some block ∧ cell < block.cells.size := by
  unfold Memory.locate at h
  split at h
  · split at h
    · rename_i hb
      split at h
      · rename_i ho
        cases h
        exact ⟨hb, by omega⟩
      · cases h
    · cases h
  · cases h

theorem Memory.IsCanonical.load (h : m.IsCanonical) (address : Value) :
    GivesCanonical (m.load address) := by
  intro v hv
  unfold Memory.load at hv
  cases hl : m.locate address with
  | error fault => simp [hl, bind, Except.bind] at hv
  | ok found =>
    obtain ⟨b, block, cell⟩ := found
    obtain ⟨hb, hc⟩ := locate_eq_ok hl
    simp only [hl, bind, Except.bind, pure, Except.pure, Except.ok.injEq] at hv
    rw [Array.getD_eq_getD_getElem?, Array.getElem?_eq_getElem hc] at hv
    refine h b block hb v ?_
    rw [← hv]
    simp

theorem target_gives (address : Value) :
    Gives (fun p ↦ ∃ block, m[p.1]? = some block ∧ block.isConst = false) (m.target address) := by
  rintro ⟨b, cell⟩ hp
  unfold Memory.target at hp
  cases hl : m.locate address with
  | error fault => simp [hl, bind, Except.bind] at hp
  | ok found =>
    obtain ⟨b', block, cell'⟩ := found
    cases hc : block.isConst with
    | true => simp [hl, hc, bind, Except.bind, throw, throwThe, MonadExceptOf.throw] at hp
    | false =>
      simp only [hl, hc, bind, Except.bind] at hp
      cases hp
      exact ⟨block, (locate_eq_ok hl).1, hc⟩

theorem fresh_canonical (name : Bytes) (isConst : Bool) (type : Ty) :
    Gives (fun block ↦ ∀ v ∈ block.cells.toList, v.IsCanonical)
      (Block.fresh name isConst type) := by
  unfold Block.fresh
  simp only
  split
  · exact .error _
  · refine .ok ?_
    simpa using layout_canonical type

theorem Memory.IsCanonical.write (h : m.IsCanonical) (hv : v.IsCanonical) :
    (m.write b cell v).IsCanonical := by
  intro i block hi w hw
  rw [Memory.write, Array.getElem?_modify] at hi
  split at hi
  · obtain ⟨old, ho, rfl⟩ := Option.map_eq_some_iff.1 hi
    simp only [Array.toList_setIfInBounds] at hw
    rcases List.mem_or_eq_of_mem_set hw with hw | rfl
    · exact h i old ho w hw
    · exact hv
  · exact h i block hi w hw

theorem kept_write (hb : m[b]? = some block) (hc : block.isConst = false) :
    m.Kept (m.write b cell v) := by
  intro i old hi
  rw [Memory.write, Array.getElem?_modify]
  split
  · rename_i he
    subst he
    rw [hi] at hb
    cases hb
    refine ⟨_, congrArg (Option.map _) hi, rfl, rfl, by simp, fun ht ↦ ?_⟩
    rw [hc] at ht
    cases ht
  · exact ⟨old, hi, .refl old⟩

theorem Memory.IsCanonical.push (h : m.IsCanonical)
    (hb : ∀ v ∈ block.cells.toList, v.IsCanonical) : Memory.IsCanonical (m.push block) := by
  intro i block' hi
  rw [Array.getElem?_push] at hi
  split at hi
  · cases hi
    exact hb
  · exact h i block' hi

theorem kept_push (m : Memory) (block : Block) : m.Kept (m.push block) := by
  intro i old hi
  refine ⟨old, ?_, .refl old⟩
  rw [Array.getElem?_push, if_neg (by have := (Array.getElem?_eq_some_iff.1 hi).1; omega)]
  exact hi

end Memory

section Effects

variable {image : Image} {memory : Memory} {frame : Frame}

/-- An effect that brings in only canonical integers and writes to no constant. -/
def Effect.Fits (memory : Memory) : Effect → Prop
  | .value v => v.IsCanonical
  | .allocate block => ∀ v ∈ block.cells.toList, v.IsCanonical
  | .write b _ v => v.IsCanonical ∧ ∃ block, memory[b]? = some block ∧ block.isConst = false

theorem effect_fits (hm : memory.IsCanonical) (hf : frame.IsCanonical) (i : Instr) :
    Gives (Effect.Fits memory) (effect image memory frame i) := by
  have hvalue : ∀ v : Value, v.IsCanonical →
      Gives (Effect.Fits memory) (.ok (Effect.value v) : Except Fault Effect) := fun _ hv ↦ .ok hv
  cases i with
  | bin dst op x y => exact .bind_any fun a ↦ .bind_any fun b ↦
      (binary_canonical op a b).bind hvalue
  | icmp | fcmp =>
    exact .bind_any fun _ ↦ .bind_any fun _ ↦ .bind_any fun b ↦ hvalue _ (isCanonical_ofBool b)
  | alloca dst elem => exact (fresh_canonical _ _ _).bind fun _ hb ↦ .ok hb
  | load dst elem addr => exact .bind_any fun p ↦ (hm.load p).bind hvalue
  | store value addr =>
    exact (hf.operand value).bind fun v hv ↦ .bind_any fun p ↦
      (target_gives p).bind fun _ ht ↦ .ok ⟨hv, ht⟩
  | phi dst choices => exact (hf.incoming choices).bind hvalue
  | zext dst value target => exact .bind_any fun v ↦ (widen_canonical v target).bind hvalue
  | gep dst inBounds elem addr indices =>
    exact .bind_any fun _ ↦ .bind_any fun _ ↦ (address_canonical _ _ _).bind hvalue
  | br | condBr | label | ret | retVoid | call | callVoid => exact .ok isCanonical_nothing

theorem Effect.Fits.apply {e : Effect} (h : e.Fits memory) (hm : memory.IsCanonical) :
    (e.apply memory).1.IsCanonical ∧ (e.apply memory).2.IsCanonical ∧
      memory.Kept (e.apply memory).2 := by
  cases e with
  | value v => exact ⟨h, hm, .refl memory⟩
  | allocate block => exact ⟨trivial, hm.push h, kept_push memory block⟩
  | write b cell v =>
    obtain ⟨hv, block, hb, hc⟩ := h
    exact ⟨isCanonical_nothing, hm.write hv, kept_write hb hc⟩

end Effects

section Steps

variable {image : Image} {s : State}

structure State.IsCanonical (s : State) : Prop where
  memory : s.memory.IsCanonical
  frame : s.frame.IsCanonical
  callers : ∀ c ∈ s.callers, c.1.IsCanonical

/-- What comes next is canonical and keeps the memory. -/
structure Next.Keeps (memory : Memory) (next : Next) : Prop where
  canonical : next.state.IsCanonical
  kept : memory.Kept next.state.memory

theorem State.IsCanonical.unwind (h : s.IsCanonical) : s.unwind.IsCanonical :=
  ⟨h.memory, h.frame, h.callers⟩

theorem State.IsCanonical.fail (h : s.IsCanonical) (fault : Fault) :
    (s.fail fault).Keeps s.memory :=
  ⟨h.unwind, .refl _⟩

theorem State.IsCanonical.failAt (h : s.IsCanonical) (i : Instr) (fault : Fault) :
    (s.failAt i fault).Keeps s.memory :=
  ⟨h.unwind, .refl _⟩

theorem State.IsCanonical.leave (h : s.IsCanonical) {v : Value} (hv : v.IsCanonical) :
    (s.leave v).Keeps s.memory := by
  unfold State.leave
  split
  · exact ⟨⟨h.memory, h.frame, h.callers⟩, .refl _⟩
  · rename_i frame call rest hc
    have hall := h.callers
    rw [hc, List.forall_mem_cons] at hall
    exact ⟨⟨h.memory, hall.1.finish call hv, hall.2⟩, .refl _⟩

theorem State.IsCanonical.call (h : s.IsCanonical) (i : Instr) (callee : Bytes) {args : List Value}
    (ha : ∀ v ∈ args, v.IsCanonical) : (s.call image i callee args).Keeps s.memory := by
  unfold State.call
  split
  · split
    · exact h.failAt _ _
    · split
      · exact h.failAt _ _
      · exact ⟨⟨h.memory, isCanonical_enter _ ha, List.forall_mem_cons.2 ⟨h.frame, h.callers⟩⟩,
          .refl _⟩
  · split
    · split
      · exact ⟨⟨h.memory, h.frame.finish i isCanonical_nothing, h.callers⟩, .refl _⟩
      · exact h.failAt _ _
    · exact h.failAt _ _

theorem State.IsCanonical.perform (h : s.IsCanonical) (i : Instr) {e : Effect}
    (he : e.Fits s.memory) : Next.Keeps s.memory (.running (s.perform i e)) := by
  obtain ⟨hv, hm, hk⟩ := he.apply h.memory
  exact ⟨⟨hm, h.frame.finish i hv, h.callers⟩, hk⟩

theorem State.IsCanonical.execute (h : s.IsCanonical) (i : Instr) :
    (s.execute image i).Keeps s.memory := by
  have hjump : ∀ {target frame}, s.frame.jump target = .ok frame →
      Next.Keeps s.memory (.running { s with frame }) := fun hj ↦
    ⟨⟨h.memory, h.frame.jump hj, h.callers⟩, .refl _⟩
  cases i with
  | label name => exact ⟨⟨h.memory, h.frame, h.callers⟩, .refl _⟩
  | br target =>
    simp only [State.execute]
    split
    · exact hjump ‹_›
    · exact h.fail _
  | condBr cond then_ else_ =>
    simp only [State.execute]
    split
    · split
      · exact hjump ‹_›
      · exact h.fail _
    · exact h.fail _
  | ret value =>
    simp only [State.execute]
    split
    · rename_i v hv
      exact h.leave (h.frame.operand value v hv)
    · exact h.fail _
  | retVoid => exact h.leave isCanonical_nothing
  | call dst result callee args | callVoid callee args =>
    simp only [State.execute]
    split
    · rename_i vs hvs
      exact h.call _ callee (h.frame.operands args vs hvs)
    · exact h.failAt _ _
  | _ =>
    simp only [State.execute]
    split
    · rename_i e he
      exact h.perform _ (effect_fits h.memory h.frame _ e he)
    · exact h.failAt _ _

theorem State.IsCanonical.step (h : s.IsCanonical) : (step image s).Keeps s.memory := by
  have hc : (s.counted image).IsCanonical := ⟨h.memory, h.frame, h.callers⟩
  rcases step_cases image s with ⟨-, hs⟩ | ⟨-, -, hs⟩ | ⟨i, ahead, -, -, hs⟩ <;> rw [hs]
  · exact h.fail _
  · exact hc.fail _
  · have h' : State.IsCanonical { s.counted image with frame := { s.frame with ahead } } :=
      ⟨h.memory, h.frame, h.callers⟩
    exact h'.execute i

end Steps

end PZero.Machine
