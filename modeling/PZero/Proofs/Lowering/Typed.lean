import PZero.Proofs.IR.WellTyped
import PZero.Proofs.Lowering.Program
import PZero.Proofs.Typing.Declarations

namespace PZero.Lowering

open IR Lower
open Typing (Scope Binding valueBinding)

/-- How values of a type are held. -/
def held : ValueType → Ty
  | .int => .int 32
  | .float => .float .single
  | .bool => .int 1
  | .string => .ptr (.int 8)
  | .unknown => .missing

def heldResult (result : Option ValueType) : Ty := result.elim .void held

theorem typeOf_eq {type : ValueType} {ty : Ty} (h : typeOf type = .ok ty) : ty = held type := by
  cases type <;> cases h <;> rfl

theorem paramRegisters_types {ps : List Typed.Param} {rs : List Register}
    (h : paramRegisters ps = .ok rs) :
    rs.map Register.type = (ps.map Typed.Param.type).map held := by
  induction ps generalizing rs with
  | nil =>
    cases h
    rfl
  | cons p ps ih =>
    obtain ⟨type, rs', ht, hr, rfl⟩ := paramRegisters_cons h
    rw [List.map_cons, List.map_cons, List.map_cons, ih hr, typeOf_eq ht]

theorem resultType_eq {result : Option Typed.Result} {ty : Ty} (h : resultType result = .ok ty) :
    ty = heldResult (result.map Typed.Result.type) := by
  cases result with
  | none =>
    cases h
    rfl
  | some r => exact typeOf_eq h

/-- The names of a scope stand for addresses of their types, the functions among them are in the
module, and so is the library. -/
structure Fits (M : IR.Module) (Γ : Scope) (s : Site) : Prop where
  addresses : ∀ isConst {name type x}, Γ.lookup name = some (valueBinding isConst type) →
    s.function.operand name s.module = .ok x → x.Is M (.ptr (held type))
  functions : ∀ {name params result}, Γ.lookup name = some (.function params result) →
    M.Provides name (params.map held) (heldResult result)
  library : M.externals = Library.externals

/-- The strings of a module draft are among the globals of a module. -/
def Holds (M : IR.Module) (m : ModuleDraft) : Prop :=
  ∀ {n : Nat} {text}, m.pool[n]? = some text → ModuleDraft.poolGlobal n text ∈ M.globals

/-- Well-typed code was written between two sites, if the module holds all strings in the end. -/
def Types (M : IR.Module) (result : Ty) (s s' : Site) : Prop :=
  Holds M s'.module → Holds M s.module ∧
    ((∀ i ∈ s.function.body, i.WellTyped M result) → ∀ i ∈ s'.function.body, i.WellTyped M result)

variable {M : IR.Module} {result : Ty} {Γ : Scope} {s s' s₁ s₂ : Site}

namespace Types

theorem refl (s : Site) : Types M result s s := fun h ↦ ⟨h, fun hb ↦ hb⟩

theorem trans (h : Types M result s s₁) (h' : Types M result s₁ s₂) : Types M result s s₂ := by
  intro hs₂
  obtain ⟨hs₁, hb'⟩ := h' hs₂
  obtain ⟨hs, hb⟩ := h hs₁
  exact ⟨hs, fun h ↦ hb' (hb h)⟩

theorem congr (h : Types M result s s₁) (hm : s₂.module = s₁.module)
    (hb : s₂.function.body = s₁.function.body) : Types M result s s₂ := by
  intro hs₂
  rw [hm] at hs₂
  rw [hb]
  exact h hs₂

theorem append {i : Instr} (h : Types M result s s₁)
    (hi : Holds M s₁.module → i.WellTyped M result) (hm : s₂.module = s₁.module)
    (hb : s₂.function.body = s₁.function.body ++ [i]) : Types M result s s₂ := by
  intro hs₂
  rw [hm] at hs₂
  obtain ⟨hs, hbody⟩ := h hs₂
  refine ⟨hs, fun hall ↦ ?_⟩
  rw [hb]
  exact List.forall_mem_append.2 ⟨hbody hall, List.forall_mem_singleton.2 (hi hs₂)⟩

theorem emit {i : Instr} (h : Types M result s s₁) (hi : i.WellTyped M result) :
    Types M result s (s₁.emit i) :=
  h.append (fun _ ↦ hi) rfl rfl

theorem define {type : Ty} {make : Register → Instr} (h : Types M result s s₁)
    (hi : (make (s₁.next type)).WellTyped M result) : Types M result s (s₁.define type make) :=
  h.append (fun _ ↦ hi) rfl rfl

theorem start (h : Types M result s s₁) (label : Bytes) : Types M result s (s₁.start label) :=
  h.append (fun _ ↦ Instr.wellTyped_label label) rfl rfl

theorem goto (h : Types M result s s₁) (target next : Bytes) :
    Types M result s (s₁.goto target next) :=
  (h.emit (Instr.wellTyped_br target)).start next

theorem fork {c : Operand} (h : Types M result s s₁) (hc : c.Is M (.int 1)) (yes no next : Bytes) :
    Types M result s (s₁.fork c yes no next) :=
  (h.emit (Instr.wellTyped_condBr hc)).start next

theorem reserve (h : Types M result s s₁) (n : Nat) : Types M result s (s₁.reserve n) :=
  h.congr rfl rfl

theorem enter (h : Types M result s s₁) : Types M result s s₁.enter := h.congr rfl rfl

theorem leave (h : Types M result s s₁) : Types M result s s₁.leave := h.congr rfl rfl

theorem slot {type : Ty} {x : Operand} (h : Types M result s s₁) (name : Bytes)
    (hx : x.Is M type) : Types M result s (s₁.slot name type x) := by
  have halloca : (Instr.alloca (s₁.next (.ptr type)) type).WellTyped M result :=
    ⟨Ty.same_self _, by simp, by simp⟩
  have hstore : (Instr.store x (.reg (s₁.next (.ptr type)))).WellTyped M result :=
    Instr.wellTyped_store hx ⟨rfl, trivial⟩
  exact ((h.define halloca).emit hstore).congr rfl (Site.bind_body _ _ _)

theorem intern (text : Bytes) : Types M result s (s.intern text) := by
  intro h
  obtain ⟨n, texts, hi, -⟩ := s.module.intern_eq text
  have hm : (s.intern text).module = s.module.withPool texts := congrArg Prod.snd hi
  refine ⟨fun {k t} ht ↦ h ?_, fun hb ↦ hb⟩
  rw [hm]
  exact List.getElem?_append_left (List.getElem?_eq_some_iff.1 ht).1 ▸ ht

end Types

theorem Adds.addresses {owed : List Nat} {code : List Instr} (h : Adds s s' owed code) :
    s'.module.addresses = s.module.addresses := by
  obtain ⟨texts, hm⟩ := h.module
  rw [hm]
  rfl

namespace Fits

theorem mono (h : Fits M Γ s) (hs : s'.function.scopes = s.function.scopes)
    (ha : s'.module.addresses = s.module.addresses) : Fits M Γ s' where
  addresses isConst {name type x} hn hx := by
    refine h.addresses isConst hn (operand_ok.2 ?_)
    rwa [operand_ok, ModuleDraft.address?, hs, ha] at hx
  functions := h.functions
  library := h.library

theorem enter (h : Fits M Γ s) : Fits M Γ s.enter where
  addresses isConst _ _ _ hn hx := h.addresses isConst hn (operand_ok.2 (operand_ok.1 hx))
  functions := h.functions
  library := h.library

theorem after_expr {e : Typed.Expr} {x : Operand} (h : Fits M Γ s)
    (hx : lowerExpr e s = .ok (x, s')) : Fits M Γ s' := by
  obtain ⟨⟨code, ha⟩, hs, -⟩ := lowerExpr_yields e hx
  exact h.mono hs ha.addresses

theorem bind {name : Bytes} {isConst : Bool} {type : ValueType} {x : Operand}
    (h : Fits M Γ s) (hx : x.Is M (.ptr (held type))) :
    Fits M ((name, valueBinding isConst type) :: Γ) (s.bind name x) where
  addresses c {other t y} hn hy := by
    rw [operand_ok, Typing.findSome?_lookup, Site.bind_scopes, List.lookup_cons] at hy
    rw [List.lookup_cons] at hn
    cases he : other == name with
    | true =>
      simp only [he, Option.some.injEq, reduceCtorEq, false_and, or_false] at hn hy
      rw [← hy, ← (Typing.valueBinding_inj hn).2]
      exact hx
    | false =>
      simp only [he] at hn hy
      rw [← Typing.findSome?_lookup] at hy
      exact h.addresses c hn (operand_ok.2 hy)
  functions {other params result} hn := by
    rw [List.lookup_cons] at hn
    cases he : other == name with
    | true => cases isConst <;> simp [he, valueBinding] at hn
    | false =>
      simp only [he] at hn
      exact h.functions hn
  library := h.library

theorem slot {name : Bytes} {isConst : Bool} {type : ValueType} (h : Fits M Γ s) (x : Operand) :
    Fits M ((name, valueBinding isConst type) :: Γ) (s.slot name (held type) x) := by
  have hs : Fits M Γ ((s.define (.ptr (held type)) (.alloca · (held type))).emit
      (.store x (.reg (s.next (.ptr (held type)))))) := h.mono rfl rfl
  exact hs.bind ⟨rfl, trivial⟩

end Fits

/-- Code was written that leaves a value of a type. -/
def Gives (M : IR.Module) (result : Ty) (s s' : Site) (x : Operand) (type : Ty) : Prop :=
  Types M result s s' ∧ x.Is M type

theorem Gives.of_define {type : Ty} {make : Register → Instr} (h : Types M result s s₁)
    (hi : (make (s₁.next type)).WellTyped M result) :
    Gives M result s (s₁.define type make) (.reg (s₁.next type)) type :=
  ⟨h.define hi, rfl, trivial⟩

theorem Gives.bin {op : BinOp} {x y z : Operand} {type : Ty}
    (h : Lower.define (Draft.bin op x y) s = .ok (z, s')) (hop : op.operandType? = some type)
    (hx : x.Is M type) (hy : y.Is M type) : Gives M result s s' z type := by
  cases define_ok.1 h
  have hi : (Instr.bin (s.next x.type) op x y).WellTyped M result :=
    Instr.wellTyped_bin hop hx.type hx hy
  exact ⟨(Types.refl s).define hi, hx.type, trivial⟩

theorem lowerBinary_gives {op : BinaryOp} {type : ValueType} {x y z : Operand}
    (h : lowerBinary op type x y s = .ok (z, s')) (ht : type ∈ op.operandTypes)
    (hx : x.Is M (held type)) (hy : y.Is M (held type)) :
    Gives M result s s' z (held (if op.isArithmetic then type else .bool)) := by
  have hsame : x.type.same y.type = true := by rw [hx.type, hy.type, Ty.same_self]
  have hoperands : ∀ o ∈ [x, y], o.IsDefined M :=
    List.forall_mem_cons.2 ⟨hx.defined, List.forall_mem_singleton.2 hy.defined⟩
  have hicmp : ∀ {pred : IntPred}, held type = .int 32 ∨ held type = .int 1 →
      define (Draft.icmp pred x y) s = .ok (z, s') → Gives M result s s' z (.int 1) := by
    intro pred hheld h
    cases define_ok.1 h
    have hi : (Instr.icmp (s.next (.int 1)) pred x y).WellTyped M result := by
      refine ⟨⟨hsame, Ty.same_self _, ?_⟩, hoperands, by simp⟩
      rw [hx.type]
      rcases hheld with he | he <;> rw [he] <;> simp
    exact .of_define (.refl s) hi
  have hfcmp : ∀ {pred : FloatPred}, held type = .float .single →
      define (Draft.fcmp pred x y) s = .ok (z, s') → Gives M result s s' z (.int 1) := by
    intro pred hheld h
    cases define_ok.1 h
    have hi : (Instr.fcmp (s.next (.int 1)) pred x y).WellTyped M result := by
      refine ⟨⟨hsame, Ty.same_self _, ?_⟩, hoperands, by simp⟩
      rw [hx.type, hheld, Ty.same_self]
    exact .of_define (.refl s) hi
  -- an operator that does not take the type is not well typed
  cases op <;> cases type <;> first
    | exact absurd ht (by decide)
    | exact .bin h rfl hx hy
    | exact hicmp (.inl rfl) h
    | exact hicmp (.inr rfl) h
    | exact hfcmp rfl h

theorem lowerUnary_gives {op : UnaryOp} {type : ValueType} {x z : Operand}
    (h : lowerUnary op type x s = .ok (z, s')) (ht : type ∈ op.operandTypes)
    (hx : x.Is M (held type)) : Gives M result s s' z (held type) := by
  cases op with
  | identity =>
    cases pure_ok.1 h
    exact ⟨.refl s, hx⟩
  | not =>
    cases type <;> first
      | exact absurd ht (by decide)
      | exact .bin h rfl hx ⟨rfl, trivial⟩
  | negate =>
    cases type <;> first
      | exact absurd ht (by decide)
      | exact .bin h rfl ⟨rfl, trivial⟩ hx

theorem lowerLiteral_gives {v : Typed.Literal} {x : Operand}
    (h : lowerLiteral v s = .ok (x, s')) : Gives M result s s' x (held v.type) := by
  cases v with
  | string text =>
    simp only [lowerLiteral, intern_bind, define_ok, Prod.mk.injEq] at h
    obtain ⟨rfl, rfl⟩ := h
    refine ⟨(Types.intern text).append (fun hm ↦ ?_) rfl rfl, rfl, trivial⟩
    obtain ⟨n, texts, hi, ht⟩ := s.module.intern_eq text
    have hpooled : ModuleDraft.poolGlobal n text ∈ M.globals := by
      refine hm ?_
      rw [Site.intern, hi]
      exact ht
    rw [hi]
    refine ⟨⟨Ty.same_self _, Ty.same_self _⟩, ?_, by simp⟩
    simp only [Instr.operands, List.forall_mem_cons, List.not_mem_nil, false_imp_iff, implies_true,
      and_true]
    exact ⟨⟨_, hpooled, rfl, Ty.same_self _⟩, trivial, trivial⟩
  | _ =>
    cases pure_ok.1 h
    exact ⟨.refl s, rfl, trivial⟩

mutual

theorem lowerExpr_gives : ∀ (e : Typed.Expr) {s s' : Site} {x : Operand},
    lowerExpr e s = .ok (x, s') → e.WellTyped Γ → Fits M Γ s →
      Gives M result s s' x (held e.type)
  | .literal v, s, s', x, h, _, _ => lowerLiteral_gives (by simpa only [lowerExpr] using h)
  | .unary op operand, s, s', x, h, ht, hf => by
    simp only [lowerExpr, bind_ok] at h
    obtain ⟨y, s₁, hy, h⟩ := h
    obtain ⟨hw, hop⟩ := ht
    obtain ⟨ht₁, hyt⟩ := lowerExpr_gives operand hy hw hf
    obtain ⟨ht₂, hxt⟩ := lowerUnary_gives h hop hyt
    exact ⟨ht₁.trans ht₂, hxt⟩
  | .unaryUnknown operand, s, s', x, _, ht, _ => ht.elim
  | .binary op left right, s, s', x, h, ht, hf => by
    simp only [lowerExpr, bind_ok] at h
    obtain ⟨y, s₁, hy, z, s₂, hz, h⟩ := h
    obtain ⟨hl, hr, he, hop⟩ := ht
    obtain ⟨ht₁, hyt⟩ := lowerExpr_gives left hy hl hf
    obtain ⟨ht₂, hzt⟩ := lowerExpr_gives right hz hr (hf.after_expr hy)
    rw [← he] at hzt
    obtain ⟨ht₃, hxt⟩ := lowerBinary_gives h hop hyt hzt
    exact ⟨(ht₁.trans ht₂).trans ht₃, hxt⟩
  | .conditional cond then_ else_, s, s', x, h, ht, hf => by
    obtain ⟨c, s₁, y, s₂, z, s₃, hc, hy, hz, h⟩ := lowerExpr_conditional_ok h
    cases h
    obtain ⟨hwc, hwt, hwe, hbool, hsame⟩ := ht
    obtain ⟨ht₁, hct⟩ := lowerExpr_gives cond hc hwc hf
    rw [hbool] at hct
    have hf₁ := hf.after_expr hc
    have hfork := (ht₁.reserve 3).fork hct (s₁.label "then" 0) (s₁.label "else" 1)
      (s₁.label "then" 0)
    have hf₂ : Fits M Γ ((s₁.reserve 3).fork c (s₁.label "then" 0) (s₁.label "else" 1)
      (s₁.label "then" 0)) := hf₁.mono rfl rfl
    obtain ⟨ht₂, hyt⟩ := lowerExpr_gives then_ hy hwt hf₂
    have hf₃ : Fits M Γ (s₂.goto (s₁.label "merge" 2) (s₁.label "else" 1)) :=
      (hf₂.after_expr hy).mono rfl rfl
    obtain ⟨ht₃, hzt⟩ := lowerExpr_gives else_ hz hwe hf₃
    rw [← hsame] at hzt
    have hmerge := (((hfork.trans ht₂).goto _ _).trans ht₃).goto (s₁.label "merge" 2)
      (s₁.label "merge" 2)
    have hphi : (Instr.phi (s₃.next y.type) [⟨y, s₂.function.current⟩,
        ⟨z, s₃.function.current⟩]).WellTyped M result :=
      Instr.wellTyped_phi (List.forall_mem_cons.2
        ⟨⟨rfl, hyt.defined⟩, List.forall_mem_singleton.2 ⟨hzt.type.trans hyt.type.symm,
          hzt.defined⟩⟩)
    exact ⟨hmerge.define hphi, hyt.type, trivial⟩
  | .ident type name, s, s', x, h, ht, hf => by
    obtain ⟨ty, addr, hty, ha, h⟩ := lowerExpr_ident_ok h
    cases h
    cases typeOf_eq hty
    have haddr : addr.Is M (.ptr (held type)) := by
      rcases ht.2 with hn | hn
      · exact hf.addresses true hn ha
      · exact hf.addresses false hn ha
    refine .of_define (.refl s) ⟨⟨?_, Ty.same_self _⟩, ?_, by simp⟩
    · rw [haddr.type, Ty.same_self]
    · exact List.forall_mem_singleton.2 haddr.defined
  | .call type callee args, s, s', x, h, ht, hf => by
    obtain ⟨ty, xs, s₁, hty, hxs, h⟩ := lowerExpr_call_ok h
    cases h
    cases typeOf_eq hty
    obtain ⟨ht₁, hts, hds⟩ := lowerExprs_gives args hxs ht.1 hf
    refine .of_define ht₁ ⟨⟨?_, Ty.same_self _⟩, hds, by simp⟩
    rw [hts]
    exact hf.functions ht.2.2
  | .missing, s, s', x, _, ht, _ => ht.elim

theorem lowerExprs_gives : ∀ (es : List Typed.Expr) {s s' : Site} {xs : List Operand},
    lowerExprs es s = .ok (xs, s') → Typed.Expr.AllWellTyped Γ es → Fits M Γ s →
      Types M result s s' ∧ xs.map Operand.type = (es.map Typed.Expr.type).map held ∧
        ∀ x ∈ xs, x.IsDefined M
  | [], s, s', xs, h, _, _ => by
    simp only [lowerExprs, pure_ok, Prod.mk.injEq] at h
    obtain ⟨rfl, rfl⟩ := h
    exact ⟨.refl s', rfl, by simp⟩
  | e :: es, s, s', xs, h, ht, hf => by
    simp only [lowerExprs, bind_ok, pure_ok, Prod.mk.injEq] at h
    obtain ⟨y, s₁, hy, ys, s₂, hys, rfl, rfl⟩ := h
    obtain ⟨ht₁, hyt⟩ := lowerExpr_gives e hy ht.1 hf
    obtain ⟨ht₂, hts, hds⟩ := lowerExprs_gives es hys ht.2 (hf.after_expr hy)
    refine ⟨ht₁.trans ht₂, ?_, List.forall_mem_cons.2 ⟨hyt.defined, hds⟩⟩
    rw [List.map_cons, List.map_cons, List.map_cons, hyt.type, hts]

end

theorem lowerLocal_types {name : Bytes} {value : Typed.Expr} (isConst : Bool)
    (h : lowerLocal name value s = .ok ((), s')) (ht : value.WellTyped Γ) (hf : Fits M Γ s) :
    Types M result s s' ∧ Fits M ((name, valueBinding isConst value.type) :: Γ) s' := by
  obtain ⟨x, s₁, type, hx, hty, h⟩ := lowerLocal_ok h
  cases h
  cases typeOf_eq hty
  obtain ⟨ht₁, hxt⟩ := lowerExpr_gives value hx ht hf
  exact ⟨ht₁.slot name hxt, (hf.after_expr hx).slot x⟩

theorem Fits.provides {e : External} (h : Fits M Γ s) (he : e ∈ Library.externals) :
    M.Provides e.name e.args e.result :=
  .inl ⟨e, h.library ▸ he, rfl, Ty.sameAll_self _, Ty.same_self _⟩

theorem lowerPrint_types {value : Typed.Expr} (h : lowerPrint value s = .ok ((), s'))
    (ht : value.Printable Γ) (hf : Fits M Γ s) : Types M result s s' := by
  simp only [lowerPrint, bind_ok] at h
  obtain ⟨x, s₁, hx, h⟩ := h
  obtain ⟨ht₁, hxt⟩ : Gives M result s s₁ x (held value.type) := by
    rcases ht with hw | ⟨text, rfl⟩
    · exact lowerExpr_gives value hx hw hf
    · exact lowerLiteral_gives (by simpa only [lowerExpr] using hx)
  have hcall : ∀ {callee y ty}, y.Is M ty → ⟨callee, [ty], .void⟩ ∈ Library.externals →
      (Instr.callVoid callee [y]).WellTyped M result := by
    intro callee y ty hy he
    refine Instr.wellTyped_callVoid ?_ (List.forall_mem_singleton.2 hy.defined)
    rw [List.map_singleton, hy.type]
    exact hf.provides he
  cases hv : value.type <;>
    simp only [hv, define_bind, emit_ok, throw_ok, Prod.mk.injEq] at h hxt <;>
    obtain ⟨-, rfl⟩ := h
  case bool =>
    have hz : (Instr.zext (s₁.next (.int 8)) x (.int 8)).WellTyped M result := by
      refine ⟨⟨Ty.same_self _, 1, 8, by decide, ?_, Ty.same_self _⟩,
        List.forall_mem_singleton.2 hxt.defined, by simp⟩
      rw [hxt.type]
      exact Ty.same_self _
    have hwide : (Operand.reg (s₁.next (.int 8))).Is M (.int 8) := ⟨rfl, trivial⟩
    exact (ht₁.define hz).emit (hcall hwide (by simp [Library.externals]))
  all_goals exact ht₁.emit (hcall hxt (by simp [Library.externals, held]))

theorem lowerPrints_types : ∀ (es : List Typed.Expr) {s s' : Site},
    lowerPrints es s = .ok ((), s') → (∀ e ∈ es, e.Printable Γ) → Fits M Γ s →
      Types M result s s'
  | [], s, s', h, _, _ => by
    simp only [lowerPrints, pure_ok, Prod.mk.injEq] at h
    obtain ⟨-, rfl⟩ := h
    exact .refl s'
  | e :: es, s, s', h, ht, hf => by
    simp only [lowerPrints, bind_ok] at h
    obtain ⟨_, s₁, he, h⟩ := h
    obtain ⟨hte, htes⟩ := List.forall_mem_cons.1 ht
    obtain ⟨⟨code, ha⟩, hs⟩ := lowerPrint_yields he
    exact (lowerPrint_types he hte hf).trans (lowerPrints_types es h htes (hf.mono hs ha.addresses))

theorem lowerScoped_types {body : Typed.Stmt} (h : lowerScoped body s = .ok ((), s'))
    (hf : Fits M Γ s)
    (ih : ∀ {s₁}, lowerStmt body s.enter = .ok ((), s₁) → Fits M Γ s.enter →
      Types M result s.enter s₁) : Types M result s s' ∧ Fits M Γ s' := by
  obtain ⟨⟨code, ha⟩, hs⟩ := lowerScoped_adds body h
  refine ⟨?_, hf.mono hs ha.addresses⟩
  obtain ⟨s₁, hb, h⟩ := lowerScoped_ok h
  cases h
  exact ((Types.refl s).enter.trans (ih hb hf.enter)).leave

mutual

theorem lowerStmt_types : ∀ (st : Typed.Stmt) {Γ : Scope} {s s' : Site},
    lowerStmt st s = .ok ((), s') → st.WellTyped Γ → Fits M Γ s →
      Types M result s s' ∧ Fits M (st.after Γ) s'
  | .const name value, Γ, s, s', h, ht, hf =>
    lowerLocal_types true (by simpa only [lowerStmt] using h) ht hf
  | .let_ name value, Γ, s, s', h, ht, hf =>
    lowerLocal_types false (by simpa only [lowerStmt] using h) ht hf
  | .assign name value, Γ, s, s', h, ht, hf => by
    obtain ⟨x, s₁, addr, hx, ha, h⟩ := lowerStmt_assign_ok h
    cases h
    obtain ⟨ht₁, hxt⟩ := lowerExpr_gives value hx ht.1 hf
    have hf₁ := hf.after_expr hx
    have haddr := hf₁.addresses false ht.2 ha
    exact ⟨ht₁.emit (Instr.wellTyped_store hxt haddr), hf₁.mono rfl rfl⟩
  | .if_ cond then_ none, Γ, s, s', h, ht, hf => by
    obtain ⟨c, s₁, s₂, hc, hb, h⟩ := lowerStmt_if_ok h
    cases h
    obtain ⟨hwc, hbool, hwt⟩ := ht
    obtain ⟨ht₁, hct⟩ := lowerExpr_gives cond hc hwc hf
    rw [hbool] at hct
    have hf₁ := hf.after_expr hc
    obtain ⟨ht₂, hf₂⟩ := lowerScoped_types hb (hf₁.mono rfl rfl) fun h hf ↦
      (lowerStmt_types then_ h hwt hf).1
    have hfork := ((ht₁.reserve 2).fork hct (s₁.label "then" 0) (s₁.label "merge" 1)
      (s₁.label "then" 0)).trans ht₂
    exact ⟨hfork.goto _ _, hf₂.mono rfl rfl⟩
  | .if_ cond then_ (some else_), Γ, s, s', h, ht, hf => by
    obtain ⟨c, s₁, s₂, s₃, hc, hb, he, h⟩ := lowerStmt_if_else_ok h
    cases h
    obtain ⟨hwc, hbool, hwt, hwe⟩ := ht
    obtain ⟨ht₁, hct⟩ := lowerExpr_gives cond hc hwc hf
    rw [hbool] at hct
    have hf₁ := hf.after_expr hc
    obtain ⟨ht₂, hf₂⟩ := lowerScoped_types hb (hf₁.mono rfl rfl) fun h hf ↦
      (lowerStmt_types then_ h hwt hf).1
    obtain ⟨ht₃, hf₃⟩ := lowerScoped_types he (hf₂.mono rfl rfl) fun h hf ↦
      (lowerStmt_types else_ h hwe hf).1
    have hfork := ((ht₁.reserve 3).fork hct (s₁.label "then" 0) (s₁.label "else" 1)
      (s₁.label "then" 0)).trans ht₂
    exact ⟨((hfork.goto _ _).trans ht₃).goto _ _, hf₃.mono rfl rfl⟩
  | .while_ cond body, Γ, s, s', h, ht, hf => by
    obtain ⟨c, s₁, s₂, hc, hb, h⟩ := lowerStmt_while_ok h
    cases h
    obtain ⟨hwc, hbool, hwb⟩ := ht
    have hhead : Types M result s
        ((s.reserve 3).goto (s.label "while" 0) (s.label "while" 0)) :=
      ((Types.refl s).reserve 3).goto _ _
    have hf₀ : Fits M Γ ((s.reserve 3).goto (s.label "while" 0) (s.label "while" 0)) :=
      hf.mono rfl rfl
    obtain ⟨ht₁, hct⟩ := lowerExpr_gives cond hc hwc hf₀
    rw [hbool] at hct
    have hf₁ := hf₀.after_expr hc
    obtain ⟨ht₂, hf₂⟩ := lowerScoped_types hb (hf₁.mono rfl rfl) fun h hf ↦
      (lowerStmt_types body h hwb hf).1
    have hfork := ((hhead.trans ht₁).fork hct (s.label "body" 1) (s.label "merge" 2)
      (s.label "body" 1)).trans ht₂
    exact ⟨hfork.goto _ _, hf₂.mono rfl rfl⟩
  | .block stmts, Γ, s, s', h, ht, hf => by
    obtain ⟨s₁, hb, h⟩ := lowerStmt_block_ok h
    cases h
    obtain ⟨⟨code, ha⟩, hs⟩ := (lowerStmts_extends stmts hb).enclosed
    obtain ⟨ht₁, -⟩ := lowerStmts_types stmts hb ht hf.enter
    exact ⟨((Types.refl s).enter.trans ht₁).leave, hf.mono hs ha.addresses⟩
  | .call callee args true, Γ, s, s', h, ht, hf => by
    obtain ⟨s₁, ha, h⟩ := lowerStmt_print_ok h
    cases h
    have ht₁ : Types M result s s₁ := lowerPrints_types args ha ht.1 hf
    obtain ⟨⟨code, hadds⟩, hs⟩ := lowerPrints_yields args ha
    have hf₁ := hf.mono hs hadds.addresses
    split
    · have hline : (Instr.callVoid Library.printLn []).WellTyped M result :=
        Instr.wellTyped_callVoid (hf.provides (e := ⟨Library.printLn, [], .void⟩)
          (by simp [Library.externals])) (by simp)
      exact ⟨ht₁.emit hline, hf₁.mono rfl rfl⟩
    · exact ⟨ht₁, hf₁⟩
  | .call callee args false, Γ, s, s', h, ht, hf => by
    obtain ⟨xs, s₁, hxs, h⟩ := lowerStmt_call_ok h
    cases h
    obtain ⟨ht₁, hts, hds⟩ := lowerExprs_gives args hxs ht.1 hf
    obtain ⟨⟨code, hadds⟩, hs, -⟩ := lowerExprs_yields args hxs
    refine ⟨ht₁.emit (Instr.wellTyped_callVoid ?_ hds), hf.mono hs hadds.addresses⟩
    rw [hts]
    exact hf.functions ht.2
  | .empty, Γ, s, s', h, _, hf => by
    simp only [lowerStmt, pure_ok, Prod.mk.injEq] at h
    obtain ⟨-, rfl⟩ := h
    exact ⟨.refl s', hf⟩
  | .missing, Γ, s, s', _, ht, _ => ht.elim

theorem lowerStmts_types : ∀ (ss : List Typed.Stmt) {Γ : Scope} {s s' : Site},
    lowerStmts ss s = .ok ((), s') → Typed.Stmt.AllWellTyped Γ ss → Fits M Γ s →
      Types M result s s' ∧ Fits M (Typed.Stmt.afterAll Γ ss) s'
  | [], Γ, s, s', h, _, hf => by
    simp only [lowerStmts, pure_ok, Prod.mk.injEq] at h
    obtain ⟨-, rfl⟩ := h
    exact ⟨.refl s', hf⟩
  | st :: ss, Γ, s, s', h, ht, hf => by
    simp only [lowerStmts, bind_ok] at h
    obtain ⟨_, s₁, hs, h⟩ := h
    obtain ⟨ht₁, hf₁⟩ := lowerStmt_types st hs ht.1 hf
    obtain ⟨ht₂, hf₂⟩ := lowerStmts_types ss h ht.2 hf₁
    exact ⟨ht₁.trans ht₂, hf₂⟩

end

theorem params_types (ps : List Typed.Param) {rs : List Register} (hf : Fits M Γ s)
    (hr : rs.map Register.type = (ps.map Typed.Param.type).map held) :
    Types M result s (s.params ps rs) ∧ Fits M (Typed.paramScope ps ++ Γ) (s.params ps rs) := by
  induction ps generalizing Γ s rs with
  | nil => exact ⟨.refl s, hf⟩
  | cons p ps ih =>
    cases rs with
    | nil => cases hr
    | cons r rs =>
      obtain ⟨ht, hrs⟩ := List.cons.inj hr
      have hx : (Operand.reg r).Is M r.type := ⟨rfl, trivial⟩
      have hslot : Fits M ((p.name, valueBinding false p.type) :: Γ)
          (s.slot p.name r.type (.reg r)) := ht ▸ hf.slot (.reg r)
      obtain ⟨ht₁, hf₁⟩ := ih hslot hrs
      refine ⟨((Types.refl s).slot p.name hx).trans ht₁, ?_⟩
      have hscope : Typed.paramScope (p :: ps) ++ Γ =
          Typed.paramScope ps ++ (p.name, valueBinding false p.type) :: Γ := by
        simp [Typed.paramScope, valueBinding]
      rw [hscope]
      exact hf₁

variable {m : ModuleDraft} {F : Function}

theorem new_wellTyped (m : ModuleDraft) (F : Function) :
    ∀ i ∈ (Site.mk m (.new F.name F.params F.result)).function.body, i.WellTyped M F.result :=
  List.forall_mem_singleton.2 (Instr.wellTyped_label Draft.entry)

theorem lowerBody_wellTyped {name : Bytes} {params : List Typed.Param} {body : List Typed.Stmt}
    {result : Option Typed.Result} (hd : (Typed.Decl.fun_ name params body result).WellTyped Γ)
    (hp : paramRegisters params = .ok F.params) (hr : resultType result = .ok F.result)
    (h : lowerBody params F.params body result ⟨m, .new F.name F.params F.result⟩ = .ok ((), s))
    (hf : Fits M Γ ⟨m, .new F.name F.params F.result⟩) (hm : Holds M s.module) :
    ∀ i ∈ s.function.body, i.WellTyped M F.result := by
  obtain ⟨-, -, hbody, hresult⟩ := hd
  obtain ⟨s₁, hs, hend⟩ := lowerBody_ok h
  obtain ⟨ht₁, hf₁⟩ := params_types params hf.enter (paramRegisters_types hp)
  obtain ⟨ht₂, hf₂⟩ := lowerStmts_types body hs hbody hf₁
  have ht : Types M F.result ⟨m, .new F.name F.params F.result⟩ s₁ :=
    ((Types.refl _).enter.trans ht₁).trans ht₂
  rcases hend with ⟨rfl, he⟩ | ⟨value, x, s₂, rfl, hx, he⟩ <;> cases he
  · have hret : Instr.retVoid.WellTyped M F.result := by
      refine ⟨?_, by simp, by simp⟩
      rw [resultType_eq hr]
      exact Ty.same_self _
    exact ((ht.emit hret).leave hm).2 (new_wellTyped m F)
  · obtain ⟨hw, hv⟩ := hresult value rfl
    obtain ⟨ht₃, hxt⟩ := lowerExpr_gives value.value hx hw hf₂
    have hret : (Instr.ret x).WellTyped M F.result := by
      refine ⟨?_, List.forall_mem_singleton.2 hxt.defined, by simp⟩
      rw [Instr.TypesAgree, resultType_eq hr, hxt.type, hv]
      exact Ty.same_self _
    exact (((ht.trans ht₃).emit hret).leave hm).2 (new_wellTyped m F)

theorem lowerMainBody_wellTyped {body : Typed.Stmt} (hb : body.WellTyped Γ)
    (hr : F.result = .int 32)
    (h : lowerMainBody body ⟨m, .new F.name F.params F.result⟩ = .ok ((), s))
    (hf : Fits M Γ ⟨m, .new F.name F.params F.result⟩) (hm : Holds M s.module) :
    ∀ i ∈ s.function.body, i.WellTyped M F.result := by
  obtain ⟨s₁, hs, h⟩ := lowerMainBody_ok h
  cases h
  have ht : Types M F.result (Site.enter ⟨m, .new F.name F.params F.result⟩) s₁ :=
    (lowerStmt_types body hs hb hf.enter).1
  have hret : (Instr.ret (.const (.int32 0))).WellTyped M F.result := by
    refine ⟨?_, List.forall_mem_singleton.2 trivial, by simp⟩
    rw [hr]
    exact Ty.same_self _
  exact ((((Types.refl _).enter.trans ht).leave.emit hret) hm).2 (new_wellTyped m F)

end PZero.Lowering
