import PZero.IR.Module

namespace PZero.IR

def Ty.isBase : Ty → Bool
  | .void | .int _ | .float .single => true
  | _ => false

def Ty.isCore : Ty → Bool
  | .array _ elem => elem.isBase
  | t => t.isBase

def Ty.isSimple : Ty → Bool
  | .ptr t => t.isSimple
  | t => t.isCore

theorem Ty.isSimple_select {t u : Ty} {index : Option Int} (h : t.isSimple = true)
    (hs : t.select? index = some u) : u.isSimple = true := by
  cases t with
  | array size elem =>
    cases hs
    cases u <;> first | exact h | cases h
  | struct => cases h
  | _ => cases hs

theorem Ty.isSimple_walk {path : List (Option Int)} {t u : Ty} (h : t.isSimple = true)
    (hw : t.walk? path = some u) : u.isSimple = true := by
  induction path generalizing t with
  | nil =>
    cases hw
    exact h
  | cons index path ih =>
    obtain ⟨v, hs, hw⟩ := Option.bind_eq_some_iff.1 hw
    exact ih (isSimple_select h hs) hw

theorem Ty.isSimple_addressed {t : Ty} (h : t.isSimple = true) (path : List (Option Int)) :
    (t.addressed path).isSimple = true := by
  rw [addressed, isSimple]
  cases hw : t.walk? (path.drop 1) with
  | none => rfl
  | some u => exact isSimple_walk h hw

def Constant.isPlain : Constant → Bool
  | .int bits value => bits ≠ 1 || value = 0 || value = 1
  | .float kind _ => kind = .single
  | .global _ (.ptr t) => t.isSimple
  | _ => false

def Operand.isPlain : Operand → Bool
  | .reg r => r.type.isSimple
  | .const c => c.isPlain

theorem Constant.isSimple_type {c : Constant} (h : c.isPlain = true) : c.type.isSimple = true := by
  cases c with
  | int => rfl
  | float kind =>
    obtain rfl : kind = .single := by simpa [Constant.isPlain] using h
    rfl
  | global name type =>
    cases type with
    | ptr t => exact h
    | _ => cases h
  | array | gep | zext => cases h

theorem Operand.isSimple_type {x : Operand} (h : x.isPlain = true) : x.type.isSimple = true := by
  cases x with
  | reg r => exact h
  | const c => exact Constant.isSimple_type h

def Instr.isPlain : Instr → Bool
  | .bin dst op x y => op ∈ BinOp.known && dst.type.isSimple && x.isPlain && y.isPlain
  | .icmp dst pred x y => pred ∈ IntPred.known && dst.type.isSimple && x.isPlain && y.isPlain
  | .fcmp dst pred x y => pred ∈ FloatPred.known && dst.type.isSimple && x.isPlain && y.isPlain
  | .alloca dst elem => dst.type.isSimple && elem.isSimple
  | .load dst elem addr => dst.type.isSimple && elem.isSimple && addr.isPlain
  | .store value addr => value.isPlain && addr.isPlain
  | .br _ | .retVoid => true
  | .condBr cond _ _ => cond.isPlain
  | .label name => Symbol.isPlain name
  | .phi dst incoming =>
    dst.type.isSimple && !incoming.isEmpty && incoming.all (·.value.isPlain)
  | .ret value => value.isPlain
  | .call dst result _ xs => dst.type.isSimple && result.isSimple && xs.all Operand.isPlain
  | .callVoid _ xs => xs.all Operand.isPlain
  | .zext dst value target => dst.type.isSimple && value.isPlain && target.isSimple
  | .gep dst inBounds elem addr indices =>
    dst.type.isSimple && inBounds && elem.isSimple && addr.isPlain && indices.all Operand.isPlain

theorem Ty.isWhole_of_isSimple {t : Ty} (h : t.isSimple = true) : t.isWhole = true := by
  have hbase : ∀ {t : Ty}, t.isBase = true → t.isWhole = true := by
    intro t h
    cases t <;> first | rfl | cases h
  match t with
  | .ptr t => exact isWhole_of_isSimple (t := t) h
  | .array size elem => exact hbase (t := elem) h
  | .void | .int _ | .float _ | .struct _ _ | .func _ _ _ | .missing => exact hbase h

theorem Operand.isBareWhole_of_isPlain {x : Operand} (h : x.isPlain = true) :
    x.isBareWhole = true := by
  cases x with
  | reg r => rfl
  | const c => cases c <;> first | rfl | cases h

theorem Operand.isWhole_of_isPlain {x : Operand} (h : x.isPlain = true) : x.isWhole = true := by
  rw [isWhole, Ty.isWhole_of_isSimple (isSimple_type h), isBareWhole_of_isPlain h]
  rfl

theorem Instr.isWhole_of_isPlain {i : Instr} (h : i.isPlain = true) : i.isWhole = true := by
  have hall : ∀ {xs : List Operand}, xs.all Operand.isPlain = true →
      xs.all Operand.isWhole = true := fun h ↦
    List.all_eq_true.2 fun x hx ↦ Operand.isWhole_of_isPlain (List.all_eq_true.1 h x hx)
  cases i <;> simp_all [isPlain, isWhole, Ty.isWhole_of_isSimple, Operand.isWhole_of_isPlain,
    Operand.isBareWhole_of_isPlain]

end PZero.IR
