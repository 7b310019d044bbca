import Mathlib.Data.List.Forall2
import PZero.Proofs.Machine.State
import PZero.Proofs.Refinement.Values
import PZero.Proofs.Typing.Declarations

namespace PZero.Refinement

open IR Machine
open Lowering (Site Adds)
open Semantics (Store Env)
open Typing (Binding Scope valueBinding)

def stringCells (text : Bytes) : List Value :=
  text.map (fun b ↦ Value.ofInt 8 b.toNat) ++ [Value.ofInt 8 0]

/-- The globals of a program and its pooled strings are in the memory. -/
structure Carries (p : Typed.Program) (pool : List Bytes) (image : Image) (w : Store)
    (st : State) : Prop where
  size : image.globals.length ≤ st.memory.size
  vars : ∀ {name isConst type}, p.scope.lookup name = some (valueBinding isConst type) →
    ∃ v b, w.globals.lookup name = some v ∧ v.type = type ∧ image.globals.lookup name = some b ∧
      Cell st.memory b isConst (encode v)
  strings : ∀ {n : Nat} {text}, pool[n]? = some text → ∃ b name,
    image.globals.lookup (Symbol.pooled n) = some b ∧
      st.memory[b]? = some ⟨name, true, (stringCells text).toArray⟩
  output : st.output.toList = w.output

theorem Carries.congr {p : Typed.Program} {pool : List Bytes} {image : Image} {w : Store}
    {st st' : State} (h : Carries p pool image w st) (hm : st'.memory = st.memory)
    (ho : st'.output = st.output) : Carries p pool image w st' where
  size := by
    rw [hm]
    exact h.size
  vars hb := by
    rw [hm]
    exact h.vars hb
  strings ht := by
    rw [hm]
    exact h.strings ht
  output := by rw [ho, h.output]

/-- Where a variable of a function lives. -/
structure Slot where
  name : Bytes
  isConst : Bool
  type : ValueType
  address : Operand
  block : Nat

/-- A slot holds a variable with its value. -/
structure Slot.Holds (image : Image) (st : State) (slot : Slot) (x : Bytes × Semantics.Value) :
    Prop where
  name : x.1 = slot.name
  type : x.2.type = slot.type
  address : st.frame.operand image slot.address = .ok (.ptr (some slot.block) 0)
  cell : Cell st.memory slot.block false (encode x.2)

/-- The scope in which the variables of a function hide the top-level names. -/
def scopeOf (p : Typed.Program) (slots : List Slot) : Scope :=
  slots.map (fun x ↦ (x.name, valueBinding x.isConst x.type)) ++ p.scope

/-- Control stands where a site goes on. -/
structure At (F : Function) (s : Site) (frame : Frame) : Prop where
  function : frame.function = F
  body : F.body = s.function.body ++ frame.ahead
  current : frame.current = s.function.current

/-- A running function: control stands at a site and the variables in scope have their slots. -/
structure Stands (p : Typed.Program) (pool : List Bytes) (image : Image) (F : Function) (s : Site)
    (slots : List Slot) (env : Env) (w : Store) (st : State) : Prop where
  control : At F s st.frame
  scopes : s.function.scopes.flatten = slots.map fun x ↦ (x.name, x.address)
  below : ∀ x ∈ slots, x.address.Below s.function.nextRegister
  held : List.Forall₂ (Slot.Holds image st) slots env
  distinct : (slots.map Slot.block).Nodup
  outside : ∀ x ∈ slots, image.globals.length ≤ x.block
  store : Carries p pool image w st

/-- What a piece of code leaves alone: registers below `n`, and all blocks that belong neither to
the `g` globals nor to the blocks it may write. -/
structure Keeps (g n : Nat) (blocks : List Nat) (st st' : State) : Prop where
  registers : ∀ k < n, st'.frame.registers.lookup (Bytes.ofNat k) =
    st.frame.registers.lookup (Bytes.ofNat k)
  size : st.memory.size ≤ st'.memory.size
  memory : ∀ b, g ≤ b → b < st.memory.size → b ∉ blocks → st'.memory[b]? = st.memory[b]?
  callers : st'.callers = st.callers
  depth : st'.depth = st.depth

namespace Keeps

variable {g n n' : Nat} {blocks new : List Nat} {st st' st'' : State}

theorem refl (g n : Nat) (blocks : List Nat) (st : State) : Keeps g n blocks st st :=
  ⟨fun _ _ ↦ rfl, Nat.le_refl _, fun _ _ _ _ ↦ rfl, rfl, rfl⟩

theorem trans_new (h : Keeps g n blocks st st') (h' : Keeps g n' (new ++ blocks) st' st'')
    (hn : n ≤ n') (hnew : ∀ b ∈ new, st.memory.size ≤ b) : Keeps g n blocks st st'' where
  registers k hk := (h'.registers k (by omega)).trans (h.registers k hk)
  size := Nat.le_trans h.size h'.size
  memory b hg hb hnot := by
    have hb' := h.size
    have hnot' : b ∉ new ++ blocks := by
      intro hm
      rcases List.mem_append.1 hm with hm | hm
      · have := hnew b hm
        omega
      · exact hnot hm
    rw [h'.memory b hg (by omega) hnot', h.memory b hg hb hnot]
  callers := h'.callers.trans h.callers
  depth := h'.depth.trans h.depth

theorem trans (h : Keeps g n blocks st st') (h' : Keeps g n' blocks st' st'') (hn : n ≤ n') :
    Keeps g n blocks st st'' :=
  h.trans_new (show Keeps g n' ([] ++ blocks) st' st'' from h') hn (by simp)

theorem mono (h : Keeps g n blocks st st') (hn : n' ≤ n) (hb : ∀ b ∈ blocks, b ∈ new) :
    Keeps g n' new st st' :=
  ⟨fun k hk ↦ h.registers k (by omega), h.size,
    fun b hg hs hnot ↦ h.memory b hg hs fun hm ↦ hnot (hb b hm), h.callers, h.depth⟩

end Keeps

theorem Keeps.operand {g n : Nat} {blocks : List Nat} {st st' : State} {image : Image} {x : Operand}
    (h : Keeps g n blocks st st') (hx : x.Below n) :
    st'.frame.operand image x = st.frame.operand image x := by
  cases x with
  | reg r =>
    obtain ⟨k, hk, hr⟩ := hx
    simp only [Frame.operand, hr, h.registers k hk]
  | const c => rfl

theorem Slot.Holds.keep {g n : Nat} {st st' : State} {slot : Slot} {x : Bytes × Semantics.Value}
    {blocks : List Nat} {image : Image} (h : slot.Holds image st x) (hk : Keeps g n blocks st st')
    (hn : slot.address.Below n) (hg : g ≤ slot.block) (hb : slot.block ∉ blocks) :
    slot.Holds image st' x where
  name := h.name
  type := h.type
  address := (hk.operand hn).trans h.address
  cell := h.cell.congr (hk.memory slot.block hg h.cell.lt_size hb)

variable {p : Typed.Program} {pool : List Bytes} {image : Image} {F : Function} {s s' : Site}
  {slots : List Slot} {env : Env} {w w' : Store} {st st' : State}

theorem forall₂_imp_mem {α β : Type} {R S : α → β → Prop} {l : List α} {l' : List β}
    (h : List.Forall₂ R l l') (hrs : ∀ a ∈ l, ∀ b, R a b → S a b) : List.Forall₂ S l l' := by
  induction h with
  | nil => exact .nil
  | cons hx hxs ih =>
    refine .cons (hrs _ List.mem_cons_self _ hx) (ih fun a ha b hab ↦ ?_)
    exact hrs a (List.mem_cons_of_mem _ ha) b hab

theorem forall₂_exists {α β : Type} {R : α → β → Prop} {l : List α} {l' : List β}
    (h : List.Forall₂ R l l') : ∀ a ∈ l, ∃ b, R a b := by
  induction h with
  | nil => simp
  | cons hx _ ih =>
    intro a ha
    rcases List.mem_cons.1 ha with rfl | ha
    · exact ⟨_, hx⟩
    · exact ih a ha

theorem Stands.keep (h : Stands p pool image F s slots env w st)
    (hk : Keeps image.globals.length s.function.nextRegister [] st st') (hc : At F s' st'.frame)
    (hs : s'.function.scopes.flatten = s.function.scopes.flatten)
    (hb : ∀ x ∈ slots, x.address.Below s'.function.nextRegister)
    (hw : Carries p pool image w' st') : Stands p pool image F s' slots env w' st' where
  control := hc
  scopes := hs.trans h.scopes
  below := hb
  held := forall₂_imp_mem h.held fun x hx _ hxy ↦
    hxy.keep hk (h.below x hx) (h.outside x hx) List.not_mem_nil
  distinct := h.distinct
  outside := h.outside
  store := hw

theorem Stands.below_le (h : Stands p pool image F s slots env w st)
    (hn : s.function.nextRegister ≤ s'.function.nextRegister) :
    ∀ x ∈ slots, x.address.Below s'.function.nextRegister :=
  fun x hx ↦ (h.below x hx).mono hn

/-- A site on the way to the code of a function in the image. -/
structure Within (F : Function) (pool : List Bytes) (s : Site) : Prop where
  labels : (IR.labels F.body).Nodup
  body : s.function.body <+: F.body
  pool : s.module.pool <+: pool
  addresses : ∀ {name c}, s.module.address? name = some c → ∃ type, c = .global name type

theorem Within.of_adds {owed : List Nat} {code : List Instr} (h : Within F pool s')
    (ha : Adds s s' owed code) : Within F pool s where
  labels := h.labels
  body := (List.prefix_append _ code).trans (ha.body ▸ h.body)
  pool := by
    obtain ⟨texts, ht⟩ := ha.module
    have hp := h.pool
    rw [ht] at hp
    exact (List.prefix_append _ texts).trans hp
  addresses hc := by
    obtain ⟨texts, ht⟩ := ha.module
    refine h.addresses ?_
    rw [ht]
    exact hc

end PZero.Refinement
