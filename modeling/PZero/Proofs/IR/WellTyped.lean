import PZero.Proofs.IR.Blocks

namespace PZero.IR

@[simp] theorem Ty.same_self (t : Ty) : t.same t = true := by
  cases h : t.isMissing <;> simp [same, h]

def Ty.SameAll (ts us : List Ty) : Prop := List.Forall₂ (fun t u ↦ t.same u = true) ts us

theorem Ty.sameAll_self (ts : List Ty) : SameAll ts ts := List.forall₂_same.2 fun t _ ↦ t.same_self

def BinOp.operandType? : BinOp → Option Ty
  | .add | .sub | .mul | .sdiv => some (.int 32)
  | .and | .or | .xor => some (.int 1)
  | .fadd | .fsub | .fmul | .fdiv => some (.float .single)
  | .other _ => none

mutual

/-- The globals that a constant mentions are defined with their types, and an address is computed
from a pointer to what it goes into. -/
def Constant.IsDefined (M : Module) : Constant → Prop
  | .int _ _ | .float _ _ => True
  | .global name type => ∃ g ∈ M.globals, g.name = name ∧ type.same (.ptr g.type) = true
  | .array elem values => (∀ v ∈ values, v.type.same elem = true) ∧ Constant.AllDefined M values
  | .gep _ elem addr indices =>
    addr.IsDefined M ∧ addr.type.same (.ptr elem) = true ∧ Constant.AllDefined M indices
  | .zext value _ => value.IsDefined M

def Constant.AllDefined (M : Module) : List Constant → Prop
  | [] => True
  | c :: cs => c.IsDefined M ∧ Constant.AllDefined M cs

end

theorem Constant.allDefined_iff {M : Module} {cs : List Constant} :
    Constant.AllDefined M cs ↔ ∀ c ∈ cs, c.IsDefined M := by
  induction cs with
  | nil => simp [AllDefined]
  | cons c cs ih => rw [AllDefined, ih, List.forall_mem_cons]

theorem Constant.isDefined_cString (M : Module) (text : Bytes) : (cString text).IsDefined M := by
  have hbytes : ∀ v ∈ text.map (fun b ↦ Constant.int 8 b.toNat) ++ [.int 8 0],
      ∃ n, v = .int 8 n := by
    intro v hv
    rcases List.mem_append.1 hv with hv | hv
    · obtain ⟨b, -, rfl⟩ := List.mem_map.1 hv
      exact ⟨_, rfl⟩
    · exact ⟨0, List.mem_singleton.1 hv⟩
  refine ⟨fun v hv ↦ ?_, allDefined_iff.2 fun v hv ↦ ?_⟩ <;> obtain ⟨n, rfl⟩ := hbytes v hv
  · exact Ty.same_self _
  · trivial

def Operand.IsDefined (M : Module) : Operand → Prop
  | .reg _ => True
  | .const c => c.IsDefined M

/-- A function that a module declares or defines, with the types of its parameters and its result.
-/
def Module.Provides (M : Module) (name : Bytes) (params : List Ty) (result : Ty) : Prop :=
  (∃ e ∈ M.externals, e.name = name ∧ Ty.SameAll e.args params ∧ e.result.same result = true) ∨
    ∃ f ∈ M.functions, f.name = name ∧ Ty.SameAll (f.params.map Register.type) params ∧
      f.result.same result = true

namespace Instr

@[simp] def incoming : Instr → List Incoming
  | .phi _ incoming => incoming
  | _ => []

def TypesAgree (M : Module) (result : Ty) : Instr → Prop
  | .bin dst op x y => x.type.same y.type = true ∧ dst.type.same x.type = true ∧
    ∃ t, op.operandType? = some t ∧ x.type.same t = true
  | .icmp dst _ x y => x.type.same y.type = true ∧ dst.type.same (.int 1) = true ∧
    (x.type.same (.int 32) = true ∨ x.type.same (.int 1) = true)
  | .fcmp dst _ x y => x.type.same y.type = true ∧ dst.type.same (.int 1) = true ∧
    x.type.same (.float .single) = true
  | .alloca dst elem => dst.type.same (.ptr elem) = true
  | .load dst elem addr => addr.type.same (.ptr elem) = true ∧ dst.type.same elem = true
  | .store value addr => addr.type.same (.ptr value.type) = true
  | .br _ | .label _ => True
  | .condBr cond _ _ => cond.type.same (.int 1) = true
  | .phi dst incoming => ∀ x ∈ incoming, x.value.type.same dst.type = true
  | .ret value => value.type.same result = true
  | .retVoid => result.same .void = true
  | .call dst type callee args =>
    M.Provides callee (args.map Operand.type) type ∧ dst.type.same type = true
  | .callVoid callee args => M.Provides callee (args.map Operand.type) .void
  | .zext dst value target => dst.type.same target = true ∧
    ∃ m n, m < n ∧ value.type.same (.int m) = true ∧ target.same (.int n) = true
  | .gep dst _ elem addr indices => addr.type.same (.ptr elem) = true ∧
    dst.type.same (elem.addressed (indices.map Operand.index?)) = true

structure WellTyped (M : Module) (result : Ty) (i : Instr) : Prop where
  types : i.TypesAgree M result
  operands : ∀ x ∈ i.operands, x.IsDefined M
  incoming : ∀ x ∈ i.incoming, x.value.IsDefined M

end Instr

structure Global.WellTyped (M : Module) (g : Global) : Prop where
  type : g.type.same g.value.type = true
  value : g.value.IsDefined M

/-- A module in which all types agree and nothing undefined is used. -/
structure Module.WellTyped (M : Module) : Prop where
  globals : ∀ g ∈ M.globals, g.WellTyped M
  functions : ∀ f ∈ M.functions, ∀ i ∈ f.body, i.WellTyped M f.result

structure Operand.Is (M : Module) (x : Operand) (type : Ty) : Prop where
  type : x.type = type
  defined : x.IsDefined M

namespace Instr

variable {M : Module} {result t : Ty} {x y : Operand}

theorem wellTyped_label (name : Bytes) : WellTyped M result (.label name) :=
  ⟨trivial, by simp, by simp⟩

theorem wellTyped_br (target : Bytes) : WellTyped M result (.br target) :=
  ⟨trivial, by simp, by simp⟩

theorem wellTyped_condBr {yes no : Bytes} (hx : x.Is M (.int 1)) :
    WellTyped M result (.condBr x yes no) := by
  refine ⟨?_, List.forall_mem_singleton.2 hx.defined, by simp⟩
  rw [TypesAgree, hx.type, Ty.same_self]

theorem wellTyped_bin {dst : Register} {op : BinOp} (hop : op.operandType? = some t)
    (hd : dst.type = t) (hx : x.Is M t) (hy : y.Is M t) :
    WellTyped M result (.bin dst op x y) := by
  refine ⟨?_, ?_, by simp⟩
  · rw [TypesAgree, hx.type, hy.type, hd]
    exact ⟨t.same_self, t.same_self, t, hop, t.same_self⟩
  · exact List.forall_mem_cons.2 ⟨hx.defined, List.forall_mem_singleton.2 hy.defined⟩

theorem wellTyped_store (hx : x.Is M t) (hy : y.Is M (.ptr t)) :
    WellTyped M result (.store x y) := by
  refine ⟨?_, ?_, by simp⟩
  · rw [TypesAgree, hx.type, hy.type, Ty.same_self]
  · exact List.forall_mem_cons.2 ⟨hx.defined, List.forall_mem_singleton.2 hy.defined⟩

theorem wellTyped_phi {dst : Register} {incoming : List Incoming}
    (h : ∀ x ∈ incoming, x.value.Is M dst.type) : WellTyped M result (.phi dst incoming) := by
  refine ⟨fun x hx ↦ ?_, by simp, fun x hx ↦ (h x hx).defined⟩
  rw [(h x hx).type, Ty.same_self]

theorem wellTyped_callVoid {callee : Bytes} {args : List Operand}
    (h : M.Provides callee (args.map Operand.type) .void) (ha : ∀ x ∈ args, x.IsDefined M) :
    WellTyped M result (.callVoid callee args) :=
  ⟨h, ha, by simp⟩

end Instr

end PZero.IR
