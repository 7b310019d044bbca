import Mathlib.Data.List.DropRight
import Mathlib.Tactic.Common
import PZero.Text.Blank

namespace PZero.Text

def IsPrinted (b : UInt8) : Prop := 0x20 ≤ b ∧ b ≤ 0x7E

instance (b : UInt8) : Decidable (IsPrinted b) := inferInstanceAs (Decidable (_ ∧ _))

/-- A table in which the space is the only entry that starts with a printable character. -/
structure IsSpaceTable (table : List Bytes) : Prop where
  space : [32] ∈ table
  other : ∀ entry ∈ table, entry = [32] ∨ entry.head?.any (fun b ↦ !decide (IsPrinted b)) = true

theorem isSpaceTable_blanks : IsSpaceTable blanks := ⟨by decide, by decide⟩

theorem isSpaceTable_reverse : IsSpaceTable (blanks.map List.reverse) := ⟨by decide, by decide⟩

variable {table : List Bytes} {text : Bytes}

theorem IsSpaceTable.entry (h : IsSpaceTable table) {entry : Bytes} {b : UInt8}
    (hb : IsPrinted b) (hm : entry ∈ table) (hs : Bytes.startsWith (b :: text) entry = true) :
    entry = [32] ∧ b = 32 := by
  have hp : entry <+: b :: text := List.isPrefixOf_iff_prefix.1 hs
  obtain rfl | hn := h.other entry hm
  · exact ⟨rfl, (List.cons_prefix_cons.1 hp).1.symm⟩
  cases entry with
  | nil => cases hn
  | cons c rest =>
    obtain rfl := (List.cons_prefix_cons.1 hp).1
    simp [hb] at hn

theorem stripFront_printed (h : IsSpaceTable table) (ht : ∀ b ∈ text, IsPrinted b) :
    stripFront table text.length text = text.dropWhile (· == 32) := by
  induction text with
  | nil => rfl
  | cons b rest ih =>
    rw [List.forall_mem_cons] at ht
    rw [List.length_cons, stripFront]
    cases hf : table.find? (Bytes.startsWith (b :: rest) ·) with
    | some entry =>
      obtain ⟨rfl, rfl⟩ := h.entry ht.1 (List.mem_of_find?_eq_some hf) (List.find?_some hf)
      exact ih ht.2
    | none =>
      have hb : b ≠ 32 := by
        rintro rfl
        exact List.find?_eq_none.1 hf [32] h.space rfl
      rw [List.dropWhile_cons_of_neg (by simpa using hb)]

theorem trimStart_printed (ht : ∀ b ∈ text, IsPrinted b) :
    trimStart text = text.dropWhile (· == 32) :=
  stripFront_printed isSpaceTable_blanks ht

theorem trimEnd_printed (ht : ∀ b ∈ text, IsPrinted b) :
    trimEnd text = text.rdropWhile (· == 32) := by
  have hr : ∀ b ∈ text.reverse, IsPrinted b := fun b hb ↦ ht b (List.mem_reverse.1 hb)
  rw [trimEnd, ← List.length_reverse, stripFront_printed isSpaceTable_reverse hr, List.rdropWhile]

theorem trim_printed (ht : ∀ b ∈ text, IsPrinted b) :
    trim text = (text.dropWhile (· == 32)).rdropWhile (· == 32) := by
  have hd : ∀ b ∈ text.dropWhile (· == 32), IsPrinted b :=
    fun b hb ↦ ht b ((List.dropWhile_sublist _).mem hb)
  rw [trim, trimStart_printed ht, trimEnd_printed hd]

end PZero.Text
