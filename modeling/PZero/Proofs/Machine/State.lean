import Mathlib.Data.List.Nodup
import PZero.Proofs.Lowering.Growth
import PZero.Proofs.Machine.Advance

namespace PZero.Machine

open IR

/-- A block that holds one value. -/
def Cell (memory : Memory) (b : Nat) (isConst : Bool) (v : Value) : Prop :=
  ∃ name, memory[b]? = some ⟨name, isConst, #[v]⟩

namespace Cell

variable {memory memory' : Memory} {b : Nat} {isConst : Bool} {v : Value}

theorem congr (h : Cell memory b isConst v) (hb : memory'[b]? = memory[b]?) :
    Cell memory' b isConst v := by
  obtain ⟨name, h⟩ := h
  exact ⟨name, hb.trans h⟩

theorem lt_size (h : Cell memory b isConst v) : b < memory.size := by
  obtain ⟨name, h⟩ := h
  exact (Array.getElem?_eq_some_iff.1 h).1

theorem load (h : Cell memory b isConst v) : memory.load (.ptr (some b) 0) = .ok v := by
  obtain ⟨name, h⟩ := h
  simp only [Memory.load, Memory.locate, h]
  rfl

theorem target (h : Cell memory b false v) : memory.target (.ptr (some b) 0) = .ok (b, 0) := by
  obtain ⟨name, h⟩ := h
  simp only [Memory.target, Memory.locate, h]
  rfl

theorem write (h : Cell memory b isConst v) (v' : Value) :
    Cell (memory.write b 0 v') b isConst v' := by
  obtain ⟨name, h⟩ := h
  refine ⟨name, ?_⟩
  simp only [Memory.write, Array.getElem?_modify, if_true, h, Option.map_some]
  rfl

end Cell

namespace Memory

theorem getElem?_write_ne {memory : Memory} {b b' : Nat} (h : b ≠ b') (cell : Nat) (v : Value) :
    (memory.write b cell v)[b']? = memory[b']? := by
  simp [write, Array.getElem?_modify, h]

@[simp] theorem size_write (memory : Memory) (b cell : Nat) (v : Value) :
    (memory.write b cell v).size = memory.size := by
  simp [write]

end Memory

theorem Registers.lookup_set_self (name : Bytes) (v : Value) (rs : Registers) :
    (Registers.set name v rs).lookup name = some v := by
  induction rs with
  | nil => simp [Registers.set]
  | cons r rs ih =>
    obtain ⟨other, held⟩ := r
    by_cases h : other = name
    · simp [Registers.set, h]
    · have h' : (name == other) = false := by simpa using fun e ↦ h e.symm
      simp [Registers.set, h, List.lookup_cons, h', ih]

theorem Registers.lookup_set_ne {name name' : Bytes} (hne : name' ≠ name) (v : Value)
    (rs : Registers) : (Registers.set name v rs).lookup name' = rs.lookup name' := by
  induction rs with
  | nil =>
    have h : (name' == name) = false := by simpa using hne
    simp [Registers.set, List.lookup_cons, h]
  | cons r rs ih =>
    obtain ⟨other, held⟩ := r
    by_cases h : other = name
    · subst h
      have h' : (name' == other) = false := by simpa using hne
      simp [Registers.set, List.lookup_cons, h']
    · simp only [Registers.set, h, if_false, List.lookup_cons, ih]

namespace Frame

theorem operand_reg {image : Image} {frame : Frame} {r : Register} {v : Value}
    (h : frame.registers.lookup r.name = some v) : frame.operand image (.reg r) = .ok v := by
  simp only [operand, h]

theorem operand_congr {image : Image} {frame frame' : Frame}
    (h : frame'.registers = frame.registers) (x : Operand) :
    frame'.operand image x = frame.operand image x := by
  cases x with
  | reg r => simp only [operand, h]
  | const c => rfl

theorem operands_congr {image : Image} {frame frame' : Frame}
    (h : frame'.registers = frame.registers) (xs : List Operand) :
    frame'.operands image xs = frame.operands image xs := by
  induction xs with
  | nil => rfl
  | cons x xs ih => simp only [operands, operand_congr h, ih]

@[simp] theorem finish_function (frame : Frame) (i : Instr) (v : Value) :
    (frame.finish i v).function = frame.function := by
  unfold finish
  split <;> rfl

@[simp] theorem finish_ahead (frame : Frame) (i : Instr) (v : Value) :
    (frame.finish i v).ahead = frame.ahead := by
  unfold finish
  split <;> rfl

@[simp] theorem finish_current (frame : Frame) (i : Instr) (v : Value) :
    (frame.finish i v).current = frame.current := by
  unfold finish
  split <;> rfl

theorem after?_eq_none {label : Bytes} {code : List Instr} (h : label ∉ labels code) :
    after? label code = none := by
  induction code with
  | nil => rfl
  | cons i rest ih =>
    cases i with
    | label name =>
      simp only [labels_label, List.mem_cons, not_or] at h
      have hn : name ≠ label := fun e ↦ h.1 e.symm
      simp only [after?, ih h.2, hn, if_false]
    | _ =>
      rw [labels_other rfl] at h
      simp only [after?, ih h]

theorem after?_label {label : Bytes} {before rest : List Instr}
    (h : (labels (before ++ .label label :: rest)).Nodup) :
    after? label (before ++ .label label :: rest) = some rest := by
  induction before with
  | nil =>
    rw [List.nil_append, labels_label, List.nodup_cons] at h
    simp only [List.nil_append, after?, after?_eq_none h.1, if_true]
  | cons i before ih =>
    have hn : (labels (before ++ .label label :: rest)).Nodup :=
      h.sublist ((List.sublist_cons_self i _).filterMap _)
    simp only [List.cons_append, after?, ih hn]

end Frame

end PZero.Machine
