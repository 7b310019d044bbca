import PZero.Proofs.Lowering.Growth

namespace PZero.IR

namespace Instr

def targets : Instr → List Bytes
  | .br target => [target]
  | .condBr _ then_ else_ => [then_, else_]
  | _ => []

/-- The operands that an instruction reads where it stands. The values of a phi are read where
control comes from. -/
@[simp] def operands : Instr → List Operand
  | .bin _ _ x y | .icmp _ _ x y | .fcmp _ _ x y => [x, y]
  | .alloca _ _ | .br _ | .label _ | .phi _ _ | .retVoid => []
  | .load _ _ addr => [addr]
  | .store value addr => [value, addr]
  | .condBr cond _ _ => [cond]
  | .ret value => [value]
  | .call _ _ _ args | .callVoid _ args => args
  | .zext _ value _ => [value]
  | .gep _ _ _ addr indices => addr :: indices

theorem isLabel_of_isTerminator {i : Instr} (h : i.isTerminator = true) : i.isLabel = false := by
  cases i <;> first | rfl | cases h

theorem result?_of_isTerminator {i : Instr} (h : i.isTerminator = true) : i.result? = none := by
  cases i <;> first | rfl | cases h

end Instr

def defined (code : List Instr) : List Register := code.filterMap Instr.result?

theorem defined_cons (i : Instr) (code : List Instr) :
    defined (i :: code) = i.result?.toList ++ defined code := by
  cases h : i.result? <;> simp [defined, h]

/-- The operands that an instruction reads where it stands. The values of a phi are read where
control comes from. -/
structure Block where
  label : Bytes
  code : List Instr

/-- A body cut at its labels: what stands before the first one, and the blocks. -/
def cut : List Instr → List Instr × List Block
  | [] => ([], [])
  | .label name :: rest => ([], ⟨name, (cut rest).1⟩ :: (cut rest).2)
  | i :: rest => (i :: (cut rest).1, (cut rest).2)

theorem cut_other {i : Instr} (h : i.isLabel = false) (rest : List Instr) :
    cut (i :: rest) = (i :: (cut rest).1, (cut rest).2) := by
  cases i <;> first | rfl | cases h

def EndsOnce (code : List Instr) : Prop :=
  ∃ before last, code = before ++ [last] ∧ last.isTerminator = true ∧
    ∀ i ∈ before, i.isTerminator = false

theorem endsOnce_singleton {i : Instr} (h : i.isTerminator = true) : EndsOnce [i] :=
  ⟨[], i, rfl, h, by simp⟩

theorem EndsOnce.cons {i : Instr} {code : List Instr} (hi : i.isTerminator = false)
    (h : EndsOnce code) : EndsOnce (i :: code) := by
  obtain ⟨before, last, rfl, hl, hb⟩ := h
  exact ⟨i :: before, last, rfl, hl, List.forall_mem_cons.2 ⟨hi, hb⟩⟩

/-- Every instruction with the label of the block that it stands in. -/
def placed (block : Bytes) : List Instr → List (Bytes × Instr)
  | [] => []
  | .label name :: rest => (name, .label name) :: placed name rest
  | i :: rest => (block, i) :: placed block rest

theorem placed_other {i : Instr} (h : i.isLabel = false) (block : Bytes) (rest : List Instr) :
    placed block (i :: rest) = (block, i) :: placed block rest := by
  cases i <;> first | rfl | cases h

/-- Control may go from a position to another one. -/
inductive Follows (body : List Instr) (i : Nat) : Nat → Prop
  | next {instr : Instr} (h : body[i]? = some instr) (ht : instr.isTerminator = false) :
    Follows body i (i + 1)
  | jump {instr : Instr} {target : Bytes} {j : Nat} (h : body[i]? = some instr)
      (ht : target ∈ instr.targets) (hj : body[j]? = some (.label target)) : Follows body i j

/-- A way from the start of a body to a position, with the positions that it has passed. -/
inductive Walk (body : List Instr) : List Nat → Nat → Prop
  | start : Walk body [] 0
  | step {passed : List Nat} {i j : Nat} (h : Walk body passed i) (hf : Follows body i j) :
    Walk body (i :: passed) j

/-- Every way to a position passes another one before. -/
def Dominates (body : List Instr) (d u : Nat) : Prop := ∀ passed, Walk body passed u → d ∈ passed

/-- A register is read at a position: by the instruction there, or by a phi of a block that the
instruction there branches to. -/
inductive UsedAt (body : List Instr) (r : Register) : Nat → Prop
  | operand {u : Nat} {i : Instr} (h : body[u]? = some i) (hr : .reg r ∈ i.operands) :
    UsedAt body r u
  | incoming {u : Nat} {i : Instr} {block label : Bytes} {dst : Register}
      {incoming : List Incoming} (hphi : (block, .phi dst incoming) ∈ placed [] body)
      (hr : ⟨.reg r, label⟩ ∈ incoming) (hu : (placed [] body)[u]? = some (label, i))
      (ht : block ∈ i.targets) : UsedAt body r u

/-- A function in static single assignment form. -/
structure Function.IsSSA (f : Function) : Prop where
  entry : ∃ code, f.body = .label Draft.entry :: code
  blocks : ∀ b ∈ (cut f.body).2, EndsOnce b.code
  labels_nodup : (labels f.body).Nodup
  labels_apart : ∀ l ∈ labels f.body,
    l ∉ (defined f.body).map Register.name ∧ l ∉ f.params.map Register.name
  targets : ∀ i ∈ f.body, ∀ t ∈ i.targets, t ∈ labels f.body ∧ t ≠ Draft.entry
  numbered : (defined f.body).map Register.name =
    (List.range (defined f.body).length).map Bytes.ofNat
  dominated : ∀ r u, UsedAt f.body r u → r ∈ f.params ∨
    ∃ d i, f.body[d]? = some i ∧ i.result? = some r ∧ Dominates f.body d u
  phis : ∀ u block dst incoming, (placed [] f.body)[u]? = some (block, .phi dst incoming) →
    (∃ v, u = v + 1 ∧ f.body[v]? = some (.label block)) ∧
      (incoming.map Incoming.label).Nodup ∧
      ∀ l, l ∈ incoming.map Incoming.label ↔
        ∃ i, (l, i) ∈ placed [] f.body ∧ block ∈ i.targets

def Module.names (M : Module) : List Bytes :=
  M.externals.map External.name ++ (M.globals.map Global.name ++ M.functions.map Function.name)

/-- A module whose symbols are distinct and whose functions are in static single assignment form. -/
structure Module.IsSSA (M : Module) : Prop where
  names : M.names.Nodup
  functions : ∀ f ∈ M.functions, f.IsSSA

end PZero.IR
