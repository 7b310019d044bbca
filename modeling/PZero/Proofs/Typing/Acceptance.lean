import PZero.Proofs.Surface.Faithful
import PZero.Proofs.Typing.Soundness

namespace PZero.Typing

open Surface (parseFile IsName)

variable {f : File} {program : Surface.Program} {typed : Typed.Program}

theorem check_eq_accepted_iff (hs : program.Shaped) :
    check program = .accepted typed ↔ WellFormed program typed := by
  rw [check_eq_accepted, checkProgram_iff hs]

theorem ok_of_toOption {ε α : Type} {e : Except ε α} {a : α} (h : e.toOption = some a) :
    e = .ok a := by
  cases e with
  | error _ => cases h
  | ok b => exact congrArg Except.ok (Option.some.inj h)

theorem checkFile_eq_ok (h : checkFile f = .ok typed) :
    ∃ program, parseFile f = (program, []) ∧ program.Shaped ∧ WellFormed program typed := by
  rcases hp : parseFile f with ⟨program, errors⟩
  cases errors with
  | cons e errors => simp [checkFile, hp] at h
  | nil =>
    have hs := Surface.parseFile_shaped hp
    rcases hc : checkProgram program with ⟨t, findings⟩
    simp only [checkFile, hp, hc] at h
    split at h
    · rename_i hf
      cases h
      subst hf
      exact ⟨program, rfl, hs, (checkProgram_iff hs).1 hc⟩
    · cases h

/-- A program is accepted exactly if it follows the rules, and with the tree that they determine.
Every name and every call in the tree has the type of the declaration that it resolves to, nothing
is without a type, and string literals are only printed. -/
theorem check_decides_rules (program : Surface.Program) (typed : Typed.Program)
    (hs : program.Shaped) :
    (check program = .accepted typed ↔ WellFormed program typed) ∧
      (WellFormed program typed →
        typed.WellTyped ∧ ∀ other, WellFormed program other → other = typed) := by
  refine ⟨check_eq_accepted_iff hs, fun h ↦ ⟨h.wellTyped hs, fun other ho ↦ ?_⟩⟩
  have ha := (check_eq_accepted_iff hs).2 h
  have hb := (check_eq_accepted_iff hs).2 ho
  rw [ha] at hb
  cases hb
  rfl

/-- A text with hidden names and a call forward. -/
def sample : File :=
  ⟨ascii "sample.p0", ascii
    "let n=-1;fun f(n:Int):Int\x7blet m=n;\x7blet m=true;\x7dreturn g(m);\x7d
fun g(k:Int):Int\x7breturn -k;\x7dfun main()\x7bprintln(\"f\",f(n));\x7d"⟩

theorem check_decides_rules_sample : ∃ program typed, parseFile sample = (program, []) ∧
    program.Shaped ∧ check program = .accepted typed ∧ WellFormed program typed ∧
      typed.WellTyped := by
  have hc : (checkFile sample).toOption.isSome := by decide +kernel
  obtain ⟨typed, ht⟩ := Option.isSome_iff_exists.1 hc
  obtain ⟨program, hp, hs, hw⟩ := checkFile_eq_ok (ok_of_toOption ht)
  obtain ⟨hiff, hwell⟩ := check_decides_rules program typed hs
  exact ⟨program, typed, hp, hs, hiff.2 hw, hw, (hwell hw).1⟩

theorem checkFile_wellTyped (h : checkFile f = .ok typed) : typed.WellTyped := by
  obtain ⟨program, -, hs, hw⟩ := checkFile_eq_ok h
  exact hw.wellTyped hs

theorem checkFile_isName (h : checkFile f = .ok typed) : ∀ d ∈ typed.decls, IsName d.name := by
  obtain ⟨program, -, hs, hw⟩ := checkFile_eq_ok h
  intro t ht
  have hn := List.mem_map_of_mem (f := Typed.Decl.name) ht
  rw [names_eq hw.decls] at hn
  obtain ⟨d, hd, he⟩ := List.mem_map.1 hn
  have hshape := hs d (List.mem_of_mem_filter hd)
  rw [← he]
  cases d with
  | var => exact hshape.1
  | fun_ => exact hshape.1

end PZero.Typing
