import PZero.Proofs.Compiled.Valid
import PZero.Proofs.IR.Heading
import PZero.Proofs.Lowering.Plain
import PZero.Proofs.Machine.Rounding

namespace PZero.Compiled

open IR
open Lowering (lower)

variable {p : Typed.Program} {M : IR.Module}

theorem IsModule.readable (h : IsModule p M) (hp : p.WellTyped)
    (hplain : ∀ F ∈ M.functions, ∀ i ∈ F.body, i.isPlain = true) : M.Readable := by
  refine ⟨h.externals, fun g hg ↦ ?_, fun F hF ↦ ?_⟩
  · rcases h.globals g hg with ⟨d, -, hd⟩ | ⟨n, text, rfl⟩
    · obtain ⟨ht, hv⟩ := Lowering.global?_plain hd
      exact ⟨ht, .inl hv⟩
    · exact ⟨rfl, .inr ⟨text, rfl⟩⟩
  · have hbody : ∀ i ∈ F.body, i.Readable M F.result := fun i hi ↦
      ⟨hplain F hF i hi, ((h.wellTyped hp).functions F hF i hi).types⟩
    rcases h.functions F hF with ⟨params, body, result, m, s, -, hps, hr, -⟩ | ⟨-, hps, hr, -⟩
    · exact ⟨Lowering.isSimple_resultType hr, Lowering.paramRegisters_simple hps, hbody⟩
    · refine ⟨?_, ?_, hbody⟩
      · rw [hr]
        rfl
      · rw [hps]
        exact fun _ hm ↦ (List.not_mem_nil hm).elim

theorem compiled_readable {f : File} {id : Bytes} (hc : Typing.checkFile f = .ok p)
    (hl : lower id p = .ok M) : M.Readable :=
  have hp := Typing.checkFile_wellTyped hc
  (isModule_of_lower hp (Typing.checkFile_isName hc) hl).readable hp (Lowering.lower_plain hl)

/-- Modules of one text that files compile to differ only in how their floats were before they were
rounded to single precision, and the machine does the same with them. -/
theorem compiled_text_determines {f f' : File} {p p' : Typed.Program} {id id' : Bytes}
    {M M' : IR.Module} (hc : Typing.checkFile f = .ok p) (hl : lower id p = .ok M)
    (hc' : Typing.checkFile f' = .ok p') (hl' : lower id' p' = .ok M') (ht : M.text = M'.text) :
    M.rounded = M'.rounded ∧ Machine.behaviour M = Machine.behaviour M' := by
  have hr := (compiled_readable hc hl).rounded_eq (compiled_readable hc' hl') ht
  exact ⟨hr, Machine.behaviour_eq_of_rounded hr⟩

/-- A program that prints a tenth, to as many digits as are given. -/
def tenth (digits : String) : File :=
  ⟨ascii "tenth.p0",
    ascii "const x=" ++ ascii digits ++ ascii ";fun main()\x7bprint(\"it's\",x);\x7d"⟩

/-- The doubles that globals hold. -/
def doubles (M : IR.Module) : List UInt64 :=
  M.globals.filterMap fun g ↦
    match g.value with
    | .float _ bits => some bits
    | _ => none

theorem tenths_rounded_eq : ∃ p p' M M',
    Typing.checkFile (tenth "0.1") = .ok p ∧ lower [] p = .ok M ∧
    Typing.checkFile (tenth "0.1000000015") = .ok p' ∧ lower [] p' = .ok M' ∧
    M.text = M'.text ∧ doubles M ≠ doubles M' ∧
    M.rounded = M'.rounded ∧ Machine.behaviour M = Machine.behaviour M' := by
  let text : Bytes :=
    (do
      let p ← (Typing.checkFile (tenth "0.1")).toOption
      let M ← (lower [] p).toOption
      return M.text).getD []
  obtain ⟨p, M, hc, hl, ht, hd⟩ := exists_compiled (f := tenth "0.1")
    (P := fun M ↦ M.text = text ∧ doubles M = [0x3FB999999999999A]) (by decide +kernel)
  obtain ⟨p', M', hc', hl', ht', hd'⟩ := exists_compiled (f := tenth "0.1000000015")
    (P := fun M ↦ M.text = text ∧ doubles M ≠ [0x3FB999999999999A]) (by decide +kernel)
  have htexts : M.text = M'.text := ht.trans ht'.symm
  exact ⟨p, p', M, M', hc, hl, hc', hl', htexts, fun he ↦ hd' (he ▸ hd),
    compiled_text_determines hc hl hc' hl' htexts⟩

end PZero.Compiled
