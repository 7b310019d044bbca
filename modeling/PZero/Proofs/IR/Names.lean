import Mathlib.Data.List.Nodup
import Mathlib.Tactic.Common
import PZero.IR.Draft

namespace PZero.Bytes

theorem toNat_of_mem_toDigits {n : Nat} {c : Char} (h : c ∈ Nat.toDigits 10 n) :
    48 ≤ c.toNat ∧ c.toNat ≤ 57 := by
  have hd := Nat.isDigit_of_mem_toDigits (by decide) (by decide) h
  simp only [Char.isDigit, Bool.and_eq_true, decide_eq_true_eq, ge_iff_le, UInt32.le_iff_toNat_le]
    at hd
  exact hd

theorem isDigit_of_mem_ofNat {n : Nat} {b : UInt8} (h : b ∈ ofNat n) : isDigit b = true := by
  simp only [ofNat, List.mem_map] at h
  obtain ⟨c, hc, rfl⟩ := h
  obtain ⟨hl, hu⟩ := toNat_of_mem_toDigits hc
  have hc : c.toNat % 2 ^ 8 = c.toNat := Nat.mod_eq_of_lt (by omega)
  simp only [isDigit, Bool.and_eq_true, decide_eq_true_eq, UInt8.le_iff_toNat_le,
    UInt8.toNat_ofNat', hc]
  exact ⟨hl, hu⟩

theorem digitsValue_foldl_map (cs : List Char) (hd : ∀ c ∈ cs, c.toNat ≤ 57) (init : Nat) :
    (cs.map fun c ↦ UInt8.ofNat c.toNat).foldl (fun n b ↦ n * 10 + (b.toNat - 48)) init =
      Nat.ofDigitChars 10 cs init := by
  induction cs generalizing init with
  | nil => rfl
  | cons c cs ih =>
    have hb := hd c List.mem_cons_self
    have hc : c.toNat % 2 ^ 8 = c.toNat := Nat.mod_eq_of_lt (by omega)
    rw [List.map_cons, List.foldl_cons, Nat.ofDigitChars_cons,
      ih (fun c h ↦ hd c (List.mem_cons_of_mem _ h)), UInt8.toNat_ofNat', hc, Nat.mul_comm init]
    rfl

theorem digitsValue_ofNat (n : Nat) : digitsValue (ofNat n) = n := by
  rw [digitsValue, ofNat, digitsValue_foldl_map _ (fun c hc ↦ (toNat_of_mem_toDigits hc).2),
    Nat.ofDigitChars_ten_toDigits]

theorem ofNat_inj {m n : Nat} (h : ofNat m = ofNat n) : m = n := by
  rw [← digitsValue_ofNat m, ← digitsValue_ofNat n, h]

end PZero.Bytes

namespace PZero.IR

def labelNumber (label : Bytes) : Nat :=
  Bytes.digitsValue (label.reverse.takeWhile Bytes.isDigit).reverse

theorem labelNumber_append (stem : Bytes) (b : UInt8) (hb : Bytes.isDigit b = false) (n : Nat) :
    labelNumber (stem ++ b :: Bytes.ofNat n) = n := by
  have hcut : (stem ++ b :: Bytes.ofNat n).reverse.takeWhile Bytes.isDigit =
      (Bytes.ofNat n).reverse := by
    rw [List.reverse_append, List.reverse_cons, List.append_assoc,
      List.takeWhile_append_of_pos (fun c hc ↦ Bytes.isDigit_of_mem_ofNat (List.mem_reverse.1 hc)),
      List.singleton_append, List.takeWhile_cons_of_neg (by simp [hb]), List.append_nil]
  rw [labelNumber, hcut, List.reverse_reverse, Bytes.digitsValue_ofNat]

@[simp] theorem labelNumber_newLabel (stem : Bytes) (d : Draft) :
    labelNumber (d.newLabel stem).1 = d.nextLabel := by
  have h : (d.newLabel stem).1 = stem ++ 95 :: Bytes.ofNat d.nextLabel := by
    simp [Draft.newLabel, ascii]
  rw [h, labelNumber_append stem 95 rfl]

@[simp] theorem labelNumber_entry : labelNumber Draft.entry = 0 := by decide

end PZero.IR

namespace PZero.Symbol

theorem parameter_ne_ofNat (name : Bytes) (n : Nat) : parameter name ≠ Bytes.ofNat n := by
  intro h
  have hp : (112 : UInt8) ∈ Bytes.ofNat n := by
    rw [← h]
    simp [parameter, ascii]
  exact absurd (Bytes.isDigit_of_mem_ofNat hp) (by decide)

theorem parameter_inj {a b : Bytes} (h : parameter a = parameter b) : a = b :=
  List.append_cancel_right h

theorem pooled_inj {m n : Nat} (h : pooled m = pooled n) : m = n :=
  Bytes.ofNat_inj (List.append_cancel_left h)

theorem pooled_head (n : Nat) : (pooled n).head? = some 46 := by
  simp [pooled, ascii]

end PZero.Symbol
