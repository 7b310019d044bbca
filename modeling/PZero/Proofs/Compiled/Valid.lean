import PZero.Proofs.Compiled.Origin
import PZero.Proofs.Lowering.Structured
import PZero.Proofs.Lowering.Typed

namespace PZero.Compiled

open IR
open Lowering (Fits held lower)
open Typing (decl_cases lookup_scope mem_decls_of_lookup ok_of_toOption valueDecl valueBinding)

variable {p : Typed.Program} {M : IR.Module}

theorem IsModule.isSSA (h : IsModule p M) : M.IsSSA := by
  refine ⟨h.names, fun F hF ↦ ?_⟩
  rcases h.functions F hF with ⟨params, body, result, m, s, -, hp, -, hl⟩ | ⟨-, hp, -, m, s, hl⟩
  · exact Lowering.lowerBody_isSSA hp hl.run hl.body
  · exact Lowering.lowerMainBody_isSSA hp hl.run hl.body

/-- The module of a file that is accepted and compiled has distinct symbols, and all its functions
are in static single assignment form. -/
theorem compiled_isSSA {f : File} {p : Typed.Program} {id : Bytes} {M : IR.Module}
    (hc : Typing.checkFile f = .ok p) (hl : lower id p = .ok M) : M.IsSSA :=
  (isModule_of_lower (Typing.checkFile_wellTyped hc) (Typing.checkFile_isName hc) hl).isSSA

theorem exists_compiled {f : File} {P : IR.Module → Prop} [DecidablePred P]
    (h : (do
      let p ← (Typing.checkFile f).toOption
      let M ← (lower [] p).toOption
      if P M then some M else none).isSome) :
    ∃ p M, Typing.checkFile f = .ok p ∧ lower [] p = .ok M ∧ P M := by
  obtain ⟨_, h⟩ := Option.isSome_iff_exists.1 h
  simp only [Option.bind_eq_bind, Option.bind_eq_some_iff, Option.ite_none_right_eq_some] at h
  obtain ⟨p, hc, M, hl, hM, -⟩ := h
  exact ⟨p, M, ok_of_toOption hc, ok_of_toOption hl, hM⟩

/-- Choices inside choices, in an argument and in the guard of a loop. -/
def nested : File :=
  ⟨ascii "nested.p0", ascii
    "fun f(a:Int):Int\x7breturn a>0?(a>1?a:0):1;\x7d
fun main()\x7blet k=f(true?1:2);while(k>0?false:true)if(k>1)print(k);else;\x7d"⟩

theorem nested_isSSA : ∃ p M, Typing.checkFile nested = .ok p ∧ lower [] p = .ok M ∧
    M.functions.map (fun F : Function ↦ F.body.countP Instr.isPhi) = [2, 2] ∧ M.IsSSA := by
  obtain ⟨p, M, hc, hl, hphis⟩ := exists_compiled (f := nested)
    (P := fun M ↦ M.functions.map (fun F : Function ↦ F.body.countP Instr.isPhi) = [2, 2])
    (by decide +kernel)
  exact ⟨p, M, hc, hl, hphis, compiled_isSSA hc hl⟩

theorem global_of_decl {Γ : Typing.Scope} {d : Typed.Decl} {g : Global} (hd : d.WellTyped Γ)
    (hg : d.global? = some g) : ∃ isConst value, d = valueDecl isConst g.name value ∧
      g.type = held value.type ∧ g.type = g.value.type ∧ g.value.IsDefined M := by
  rcases decl_cases hd with ⟨isConst, name, value, hs, rfl⟩ | ⟨name, params, body, result, rfl⟩
  · refine ⟨isConst, value, ?_⟩
    cases value with
    | string text => exact hs.elim
    | _ =>
      rw [Refinement.global?_valueDecl rfl] at hg
      cases hg
      exact ⟨rfl, rfl, rfl, trivial⟩
  · cases hg

theorem IsModule.fits {m : ModuleDraft} (h : IsModule p M) (hp : p.WellTyped)
    (ha : Addressed p.decls M.globals m) (name : Bytes) (params : List Register) (result : Ty) :
    Fits M p.scope ⟨m, .new name params result⟩ where
  addresses isConst name type x hn hx := by
    rcases Lowering.Lower.operand_ok.1 hx with hl | ⟨-, c, hc, rfl⟩
    · cases hl
    · obtain ⟨l₁, l₂, he, -⟩ := List.lookup_eq_some_iff.1 hc
      have hmem : (name, c) ∈ m.addresses := by
        rw [show m.addresses = _ from he]
        simp
      obtain ⟨g, hg, ⟨d, hd, hdg⟩, hnc⟩ := ha (name, c) hmem
      obtain ⟨rfl, rfl⟩ := Prod.mk.inj hnc
      obtain ⟨isConst', value, rfl, ht, -⟩ := @global_of_decl M _ _ _ (hp.decls d hd) hdg
      rw [lookup_scope hp hd, Option.some.injEq] at hn
      rw [← (Typing.valueBinding_inj hn).2, ← ht]
      exact ⟨rfl, g, hg, rfl, Ty.same_self _⟩
  functions {name params result} hn := by
    obtain ⟨d, hd, hb⟩ := mem_decls_of_lookup hn
    rcases decl_cases (hp.decls d hd) with ⟨isConst, name, value, -, rfl⟩ |
      ⟨name, params, body, result, rfl⟩
    · rw [Typing.binding?_valueDecl] at hb
      cases isConst <;> cases hb
    · cases hb
      obtain ⟨F, hF, hname, hps, hres⟩ := h.declared hd
      refine .inr ⟨F, hF, hname, ?_, ?_⟩
      · rw [Lowering.paramRegisters_types hps]
        exact Ty.sameAll_self _
      · rw [Lowering.resultType_eq hres]
        exact Ty.same_self _
  library := h.externals

theorem IsModule.wellTyped (h : IsModule p M) (hp : p.WellTyped) : M.WellTyped := by
  refine ⟨fun g hg ↦ ?_, fun F hF ↦ ?_⟩
  · rcases h.globals g hg with ⟨d, hd, hdg⟩ | ⟨n, text, rfl⟩
    · obtain ⟨isConst, value, -, -, ht, hv⟩ := @global_of_decl M _ _ _ (hp.decls d hd) hdg
      refine ⟨?_, hv⟩
      rw [ht, Ty.same_self]
    · exact ⟨Ty.same_self _, Constant.isDefined_cString M text⟩
  · rcases h.functions F hF with
      ⟨params, body, result, m, s, hd, hps, hr, hl⟩ | ⟨-, -, hr, m, s, hl⟩ <;> rw [hl.body]
    · exact Lowering.lowerBody_wellTyped (hp.decls _ hd) hps hr hl.run
        (h.fits hp hl.addresses _ _ _) hl.pool
    · exact Lowering.lowerMainBody_wellTyped hp.main hr hl.run
        (h.fits hp hl.addresses _ _ _) hl.pool

/-- In the module of a file that is accepted and compiled, all types agree and nothing refers to
what is not defined. -/
theorem compiled_wellTyped {f : File} {p : Typed.Program} {id : Bytes} {M : IR.Module}
    (hc : Typing.checkFile f = .ok p) (hl : lower id p = .ok M) : M.WellTyped :=
  have hp := Typing.checkFile_wellTyped hc
  (isModule_of_lower hp (Typing.checkFile_isName hc) hl).wellTyped hp

/-- Names of several types that hide each other. -/
def mixed : File :=
  ⟨ascii "mixed.p0", ascii
    "const x=2.5;fun half(y:Float):Float\x7blet x=y/x;return x;\x7d
fun main()\x7blet x=3;\x7blet x=x==3;print(\"is\",x);\x7dprintln(half(-x>0?1.0:2.0));\x7d"⟩

theorem mixed_wellTyped : ∃ p M, Typing.checkFile mixed = .ok p ∧ lower [] p = .ok M ∧
    M.globals.length = 2 ∧ M.functions.length = 2 ∧ M.WellTyped := by
  obtain ⟨p, M, hc, hl, hglobals, hfunctions⟩ := exists_compiled (f := mixed)
    (P := fun M ↦ M.globals.length = 2 ∧ M.functions.length = 2) (by decide +kernel)
  exact ⟨p, M, hc, hl, hglobals, hfunctions, compiled_wellTyped hc hl⟩

end PZero.Compiled
