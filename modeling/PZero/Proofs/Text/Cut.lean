import Mathlib.Data.List.TakeWhile
import PZero.Bytes

namespace PZero.Bytes

variable {sep : UInt8}

theorem cutAtByte_append {front : Bytes} (h : sep ∉ front) (after : Bytes) :
    cutAtByte sep (front ++ sep :: after) = some (front, after) := by
  have hfront : ∀ b ∈ front, (b != sep) = true := fun b hb ↦ bne_iff_ne.2 fun he ↦ h (he ▸ hb)
  have hsep : ¬ (sep != sep) = true := by simp
  rw [cutAtByte, List.dropWhile_append_of_pos hfront, List.takeWhile_append_of_pos hfront,
    List.dropWhile_cons_of_neg (p := (· != sep)) hsep,
    List.takeWhile_cons_of_neg (p := (· != sep)) hsep, List.append_nil]

theorem cutAtByte_eq_none {text : Bytes} (h : sep ∉ text) : cutAtByte sep text = none := by
  have hdrop : text.dropWhile (· != sep) = [] := by
    rw [List.dropWhile_eq_nil_iff]
    intro b hb
    exact bne_iff_ne.2 fun he ↦ h (he ▸ hb)
  rw [cutAtByte, hdrop]

end PZero.Bytes
