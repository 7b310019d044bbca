import PZero.Diagnostic
import PZero.Proofs.Source.Position

namespace PZero

namespace Diagnostic

theorem located_le (f : File) {s t : Span} (h : s.start ≤ t.start)
    (code message code' message' : Bytes) :
    (located f s code message).le (located f t code' message') = true := by
  have hle : ∀ {line line' col col' : Nat}, line < line' ∨ line = line' ∧ col ≤ col' →
      (⟨f.name, line, col, code, message⟩ : Diagnostic).le
        ⟨f.name, line', col', code', message'⟩ = true := by
    rintro line line' col col' (hless | ⟨rfl, hcol⟩)
    · have hless : (line : Int) < line' := Int.ofNat_lt.2 hless
      rw [le, if_pos rfl, if_neg (Int.ne_of_lt hless)]
      exact decide_eq_true hless
    · rw [le, if_pos rfl, if_pos rfl]
      exact decide_eq_true (Int.ofNat_le.2 hcol)
  exact hle (f.lineCol_mono h)

theorem renderAll_eq {ds : List Diagnostic} (h : ds.Pairwise fun a b ↦ a.le b = true) :
    renderAll ds = ds.flatMap render := by
  rw [renderAll, List.mergeSort_of_pairwise h]

end Diagnostic

end PZero
