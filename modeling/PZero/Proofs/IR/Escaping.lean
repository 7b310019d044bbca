import PZero.Proofs.IR.Contents
import PZero.Proofs.Text.Trim

namespace PZero.Symbol

open Bytes
open IR.Scan (isHex)
open Text (IsPrinted)

/-- A text that can stand between quotes and be read back. -/
structure IsEscaped (text : Bytes) : Prop where
  printed : ∀ b ∈ text, IsPrinted b ∧ b ≠ 34
  backslash : ∀ rest, 92 :: rest <:+ text →
    ∃ high low tail, rest = high :: low :: tail ∧ isHex high = true ∧ isHex low = true

theorem hex_upperDigit {n : Nat} (h : n < 16) :
    isHex (upperDigit n) = true ∧ IsPrinted (upperDigit n) ∧ upperDigit n ≠ 34 ∧
      upperDigit n ≠ 92 := by
  have hall : ∀ n < 16, isHex (upperDigit n) = true ∧ IsPrinted (upperDigit n) ∧
      upperDigit n ≠ 34 ∧ upperDigit n ≠ 92 := by decide +kernel
  exact hall n h

theorem isEscaped_nil : IsEscaped [] where
  printed _ hb := (List.not_mem_nil hb).elim
  backslash rest h := absurd (List.suffix_nil.1 h) (List.cons_ne_nil 92 rest)

namespace IsEscaped

variable {text : Bytes} {b : UInt8}

theorem plain (h : IsEscaped text) (hp : IsPrinted b) (hq : b ≠ 34) (hb : b ≠ 92) :
    IsEscaped (b :: text) where
  printed := List.forall_mem_cons.2 ⟨⟨hp, hq⟩, h.printed⟩
  backslash rest hs := by
    obtain he | hs := List.suffix_cons_iff.1 hs
    · exact absurd (List.cons.inj he).1.symm hb
    · exact h.backslash rest hs

theorem escaped (h : IsEscaped text) (b : UInt8) : IsEscaped (92 :: (upperHex b ++ text)) := by
  have hlt := b.toNat_lt
  obtain ⟨hhex, hprinted, hquote, hslash⟩ := hex_upperDigit (show b.toNat / 16 < 16 by omega)
  obtain ⟨hhex', hprinted', hquote', hslash'⟩ := hex_upperDigit (show b.toNat % 16 < 16 by omega)
  have htail : IsEscaped (upperHex b ++ text) :=
    (h.plain hprinted' hquote' hslash').plain hprinted hquote hslash
  refine ⟨List.forall_mem_cons.2 ⟨by decide, htail.printed⟩, fun rest hs ↦ ?_⟩
  obtain he | hs := List.suffix_cons_iff.1 hs
  · exact ⟨_, _, text, (List.cons.inj he).2, hhex, hhex'⟩
  · exact htail.backslash rest hs

end IsEscaped

theorem isEscaped_escape (bytes : Bytes) : IsEscaped (escape bytes) := by
  induction bytes with
  | nil => exact isEscaped_nil
  | cons b bytes ih =>
    rw [escape, List.flatMap_cons, ← escape]
    unfold escapeByte
    split
    · rename_i hb
      exact ih.plain hb.2.2 hb.1 hb.2.1
    · exact ih.escaped b

theorem atModule_injective : Function.Injective atModule := fun _ _ h ↦
  spell_inj (List.append_cancel_left h)

theorem inFunction_injective : Function.Injective inFunction := fun _ _ h ↦
  spell_inj (List.append_cancel_left h)

end PZero.Symbol

namespace PZero.IR

open PZero.Symbol (IsEscaped atModule escape inFunction unescape)

theorem cString_text (s : Bytes) : (Constant.cString s).text =
    ascii "[" ++ Bytes.ofNat (s.length + 1) ++ ascii " x i8] c\"" ++ escape (s ++ [0]) ++
      ascii "\"" := by
  have htype : (Constant.cString s).type.text =
      ascii "[" ++ Bytes.ofNat (s.length + 1) ++ ascii " x i8]" := by
    have hlen : (Constant.cString s).type = .array (Int.ofNat (s.length + 1)) (.int 8) := by
      simp [Constant.cString, Constant.type]
    rw [hlen, Ty.text, Ty.text, List.append_assoc _ (ascii " x ")]
    exact List.append_assoc _ _ _
  have hgap : ascii " x i8] c\"" = ascii " x i8]" ++ ascii " " ++ ascii "c\"" := by decide
  rw [Constant.text, Constant.withType, htype, Scan.cString_bare, hgap]
  simp only [List.append_assoc]

/-- Escaped bytes are printable and have no quote among them, and each backslash with the two digits
behind it is the byte that they write. So a string is read back from its text with a final zero and
the size it declares, and different names have different references, with and without quotes. -/
theorem escaped_text_reads_back :
    (∀ bytes, IsEscaped (escape bytes) ∧ unescape (escape bytes) = bytes) ∧
    (∀ s, ∃ body, (Constant.cString s).text = ascii "[" ++ Bytes.ofNat (s.length + 1) ++
        ascii " x i8] c\"" ++ body ++ ascii "\"" ∧
      IsEscaped body ∧ unescape body = s ++ [0]) ∧
    Function.Injective atModule ∧ Function.Injective inFunction := by
  refine ⟨fun bytes ↦ ?_, fun s ↦ ?_, Symbol.atModule_injective, Symbol.inFunction_injective⟩
  · exact ⟨Symbol.isEscaped_escape bytes, Symbol.unescape_escape bytes⟩
  · exact ⟨_, cString_text s, Symbol.isEscaped_escape _, Symbol.unescape_escape _⟩

example : escape (ascii "a\"0\\" ++ [0, 127, 255]) = ascii "a\\220\\5C\\00\\7F\\FF" := by decide

end PZero.IR
