import PZero.Proofs.IR.Spelling
import PZero.Proofs.Machine.State

namespace PZero.Machine

open IR

def Faults {α : Type} (P : Fault → Prop) (m : Except Fault α) : Prop :=
  ∀ fault, m = .error fault → P fault

namespace Faults

variable {α β : Type} {P Q : Fault → Prop} {m : Except Fault α}

theorem ok (a : α) : Faults P (.ok a : Except Fault α) := fun _ h ↦ nomatch h

theorem error {fault : Fault} (h : P fault) : Faults P (.error fault : Except Fault α) := by
  intro fault' he
  cases he
  exact h

theorem bind {f : α → Except Fault β} (h : Faults P m) (hf : ∀ a, Faults P (f a)) :
    Faults P (m >>= f) := by
  intro fault he
  cases m with
  | ok a => exact hf a fault he
  | error fault' =>
    cases he
    exact h _ rfl

theorem mono (h : Faults P m) (hpq : ∀ fault, P fault → Q fault) : Faults Q m :=
  fun fault he ↦ hpq fault (h fault he)

end Faults

def IsPlain (fault : Fault) : Prop := fault.isTrap = false

/-- A fault that no limit causes. -/
def IsOwn (fault : Fault) : Prop := ∀ limit, fault ≠ .stepLimit limit ∧ fault ≠ .depthLimit limit

theorem IsPlain.isOwn {fault : Fault} (h : IsPlain fault) : IsOwn fault := by
  intro limit
  constructor
  · rintro rfl
    cases h
  · rintro rfl
    cases h

variable {image : Image}

theorem integer_faults (bits n : Int) : Faults IsPlain (integer bits n) := by
  unfold integer
  split
  · exact .ok _
  · exact .error rfl

theorem widen_faults (v : Value) (target : Ty) : Faults IsPlain (widen v target) := by
  unfold widen
  split
  · exact integer_faults _ _
  · exact .error rfl

theorem follow_faults (offset : Int) (indices : List Int) (t : Ty) :
    Faults IsPlain (follow offset indices t) := by
  fun_induction follow offset indices t with
  | case1 => exact .ok _
  | case2 _ _ _ _ _ ih => exact ih
  | case3 _ _ _ _ _ _ _ ih => exact ih
  | case4 => exact .error rfl
  | case5 => exact .error rfl
  | case6 => exact .error rfl

theorem address_faults (base : Value) (elem : Ty) (indices : List Int) :
    Faults IsPlain (address base elem indices) := by
  unfold address
  split
  · exact .ok _
  · exact (follow_faults _ _ _).bind fun _ ↦ .ok _
  · exact .error rfl

mutual

theorem constant_faults : ∀ c : Constant, Faults IsPlain (image.constant c)
  | .int bits value => by
    rw [Image.constant]
    exact integer_faults _ _
  | .float kind bits => by
    cases kind <;> exact .ok _
  | .global name _ => by
    rw [Image.constant]
    split
    · exact .ok _
    · exact .error rfl
  | .gep _ elem addr indices => by
    rw [Image.constant]
    exact (constant_faults addr).bind fun _ ↦ (indices_faults indices).bind fun _ ↦
      address_faults _ _ _
  | .zext value target => by
    rw [Image.constant]
    exact (constant_faults value).bind fun _ ↦ widen_faults _ _
  | .array elem values => by
    rw [Image.constant]
    exact .error rfl

theorem indices_faults : ∀ cs : List Constant, Faults IsPlain (image.indices cs)
  | [] => .ok _
  | c :: cs => by
    rw [Image.indices]
    exact (constant_faults c).bind fun _ ↦ (indices_faults cs).bind fun _ ↦ .ok _

end

variable {frame : Frame}

theorem operand_faults (x : Operand) : Faults IsPlain (frame.operand image x) := by
  cases x with
  | reg r =>
    rw [Frame.operand]
    split
    · exact .ok _
    · exact .error rfl
  | const c => exact constant_faults c

theorem operands_faults (xs : List Operand) : Faults IsPlain (frame.operands image xs) := by
  induction xs with
  | nil => exact .ok _
  | cons x xs ih => exact (operand_faults x).bind fun _ ↦ ih.bind fun _ ↦ .ok _

theorem incoming_faults (xs : List Incoming) : Faults IsPlain (frame.incoming image xs) := by
  induction xs with
  | nil => exact .error rfl
  | cons x xs ih =>
    rw [Frame.incoming]
    split
    · exact operand_faults _
    · exact ih

theorem jump_faults (target : Bytes) : Faults IsPlain (frame.jump target) := by
  unfold Frame.jump
  split
  · exact .ok _
  · exact .error rfl

theorem locate_faults (memory : Memory) (v : Value) : Faults IsOwn (memory.locate v) := by
  unfold Memory.locate
  split
  · split
    · split
      · exact .ok _
      · exact .error fun _ ↦ ⟨nofun, nofun⟩
    · exact .error fun _ ↦ ⟨nofun, nofun⟩
  · exact .error fun _ ↦ ⟨nofun, nofun⟩

theorem load_faults (memory : Memory) (v : Value) : Faults IsOwn (memory.load v) :=
  (locate_faults memory v).bind fun _ ↦ .ok _

theorem target_faults (memory : Memory) (v : Value) : Faults IsOwn (memory.target v) := by
  refine (locate_faults memory v).bind fun ⟨b, block, cell⟩ ↦ ?_
  dsimp only
  split
  · exact .error fun _ ↦ ⟨nofun, nofun⟩
  · exact .ok _

theorem readString_faults (memory : Memory) (v : Value) : Faults IsOwn (memory.readString v) := by
  refine (locate_faults memory v).bind fun ⟨b, block, cell⟩ ↦ ?_
  dsimp only
  split
  · exact .error fun _ ↦ ⟨nofun, nofun⟩
  · exact .ok _

theorem library_faults (memory : Memory) (name : Bytes) (args : List Value) :
    Faults IsOwn (library memory name args) := by
  have hplain : ∀ {fault : Fault}, fault.isTrap = false →
      Faults IsOwn (.error fault : Except Fault Bytes) := fun h ↦ .error (IsPlain.isOwn h)
  unfold library
  split
  · split
    · exact .ok _
    · exact hplain rfl
  · split
    · exact hplain rfl
    · split
      · exact .ok _
      · split
        · exact .ok _
        · split
          · exact .ok _
          · split
            · exact readString_faults _ _
            · exact hplain rfl
  · exact hplain rfl

def mayTrap : Instr → Bool
  | .bin _ .sdiv _ _ | .load _ _ _ | .store _ _ | .call _ _ _ _ | .callVoid _ _ => true
  | _ => false

/-- A fault that an instruction itself causes. -/
structure CausedBy (i : Instr) (fault : Fault) : Prop where
  mayTrap : fault.isTrap = true → mayTrap i = true
  isOwn : IsOwn fault

theorem IsPlain.causedBy {fault : Fault} (h : IsPlain fault) (i : Instr) : CausedBy i fault where
  mayTrap ht := by
    rw [show fault.isTrap = false from h] at ht
    cases ht
  isOwn := h.isOwn

theorem binary_faults (dst : Register) (op : BinOp) (x y : Operand) (a b : Value) :
    Faults (CausedBy (.bin dst op x y)) (binary op a b) := by
  cases op with
  | sdiv =>
    rw [binary, divide]
    split
    · exact .error ⟨fun _ ↦ rfl, fun _ ↦ ⟨nofun, nofun⟩⟩
    · split
      · exact .error ⟨fun _ ↦ rfl, fun _ ↦ ⟨nofun, nofun⟩⟩
      · exact .ok _
  | other name => exact .error ((show IsPlain (.unknownOperator _) from rfl).causedBy _)
  | _ => exact .ok _

theorem compareInts_faults (pred : IntPred) (a b : Value) :
    Faults IsPlain (compareInts pred a b) := by
  cases pred with
  | other code => exact .error rfl
  | _ => exact .ok _

theorem compareFloats_faults (pred : FloatPred) (a b : UInt64) :
    Faults IsPlain (compareFloats pred a b) := by
  cases pred with
  | other code => exact .error rfl
  | _ => exact .ok _

theorem fresh_faults (name : Bytes) (isConst : Bool) (t : Ty) :
    Faults IsPlain (Block.fresh name isConst t) := by
  unfold Block.fresh
  dsimp only
  split
  · exact .error rfl
  · exact .ok _

theorem effect_faults (memory : Memory) (i : Instr) :
    Faults (CausedBy i) (effect image memory frame i) := by
  have hplain : ∀ {α : Type} {m : Except Fault α}, Faults IsPlain m → Faults (CausedBy i) m :=
    fun h ↦ h.mono fun _ hp ↦ hp.causedBy i
  cases i with
  | bin dst op x y =>
    exact (hplain (operand_faults x)).bind fun a ↦ (hplain (operand_faults y)).bind fun b ↦
      (binary_faults dst op x y a b).bind fun _ ↦ .ok _
  | icmp dst pred x y =>
    exact hplain ((operand_faults x).bind fun a ↦ (operand_faults y).bind fun b ↦
      (compareInts_faults pred a b).bind fun _ ↦ .ok _)
  | fcmp dst pred x y =>
    exact hplain ((operand_faults x).bind fun a ↦ (operand_faults y).bind fun b ↦
      (compareFloats_faults pred a.pattern b.pattern).bind fun _ ↦ .ok _)
  | alloca dst elem => exact hplain ((fresh_faults _ _ _).bind fun _ ↦ .ok _)
  | load dst elem addr =>
    refine (hplain (operand_faults addr)).bind fun p ↦ ?_
    exact ((load_faults memory p).mono fun _ h ↦ ⟨fun _ ↦ rfl, h⟩).bind fun _ ↦ .ok _
  | store value addr =>
    refine (hplain (operand_faults value)).bind fun v ↦ (hplain (operand_faults addr)).bind fun p ↦
      ?_
    exact ((target_faults memory p).mono fun _ h ↦ ⟨fun _ ↦ rfl, h⟩).bind fun _ ↦ .ok _
  | phi dst incoming => exact hplain ((incoming_faults incoming).bind fun _ ↦ .ok _)
  | zext dst value target =>
    exact hplain ((operand_faults value).bind fun v ↦ (widen_faults v target).bind fun _ ↦ .ok _)
  | gep dst inBounds elem addr indices =>
    exact hplain ((operand_faults addr).bind fun base ↦ (operands_faults indices).bind fun vs ↦
      (address_faults base elem _).bind fun _ ↦ .ok _)
  | _ => exact .ok _

end PZero.Machine
