import Mathlib.Computability.RegularExpressions
import PZero.Proofs.Surface.Lexemes

namespace PZero.Token

open Surface (IsDigits IsName IsFraction IsExponent IsFloat)

open RegularExpression (char)

def anyOf (bytes : Bytes) : RegularExpression UInt8 := (bytes.map char).sum

def letters : Bytes := ascii "ABCDEFGHIJKLMNOPQRSTUVWXYZabcdefghijklmnopqrstuvwxyz_"

def decimals : Bytes := ascii "0123456789"

def nameClass : RegularExpression UInt8 := anyOf letters * (anyOf (letters ++ decimals)).star

def digitsClass : RegularExpression UInt8 := anyOf decimals * (anyOf decimals).star

def fractionClass : RegularExpression UInt8 := anyOf (ascii ".") * digitsClass

def exponentClass : RegularExpression UInt8 :=
  anyOf (ascii "eE") * ((1 + anyOf (ascii "+-")) * digitsClass)

def numberClass : RegularExpression UInt8 :=
  digitsClass * ((1 + fractionClass) * (1 + exponentClass))

def floatClass : RegularExpression UInt8 :=
  digitsClass * (fractionClass * (1 + exponentClass) + exponentClass)

theorem mem_anyOf {bytes word : Bytes} :
    word ∈ (anyOf bytes).matches' ↔ ∃ b ∈ bytes, word = [b] := by
  induction bytes with
  | nil => simp [anyOf, Language.notMem_zero]
  | cons b bytes ih =>
    rw [anyOf] at ih
    have hb : word ∈ (char b).matches' ↔ word = [b] := Iff.rfl
    rw [anyOf, List.map_cons, List.sum_cons, RegularExpression.matches'_add, Language.mem_add, ih,
      hb]
    simp

theorem mem_star_anyOf {bytes word : Bytes} :
    word ∈ (anyOf bytes).star.matches' ↔ ∀ b ∈ word, b ∈ bytes := by
  rw [RegularExpression.matches'_star, Language.mem_kstar]
  constructor
  · rintro ⟨words, rfl, hw⟩ b hb
    obtain ⟨word, hm, hb⟩ := List.mem_flatten.1 hb
    obtain ⟨c, hc, rfl⟩ := mem_anyOf.1 (hw word hm)
    rwa [List.mem_singleton.1 hb]
  · intro h
    refine ⟨word.map ([·]), ?_, ?_⟩
    · simp [List.flatten_eq_flatMap, List.flatMap_map]
    · intro part hp
      obtain ⟨b, hb, rfl⟩ := List.mem_map.1 hp
      exact mem_anyOf.2 ⟨b, h b hb, rfl⟩

theorem mem_anyOf_mul_star {first later word : Bytes} :
    word ∈ (anyOf first * (anyOf later).star).matches' ↔
      ∃ b rest, word = b :: rest ∧ b ∈ first ∧ ∀ c ∈ rest, c ∈ later := by
  rw [RegularExpression.matches'_mul, Language.mem_mul]
  constructor
  · rintro ⟨_, hf, rest, hr, rfl⟩
    obtain ⟨b, hb, rfl⟩ := mem_anyOf.1 hf
    exact ⟨b, rest, rfl, hb, mem_star_anyOf.1 hr⟩
  · rintro ⟨b, rest, rfl, hb, hr⟩
    exact ⟨[b], mem_anyOf.2 ⟨b, hb, rfl⟩, rest, mem_star_anyOf.2 hr, rfl⟩

theorem mem_iff_of_bytes {bytes : Bytes} {p : UInt8 → Bool} (hpass : ∀ b ∈ bytes, p b)
    (hfind : ∀ n < 256, p (UInt8.ofNat n) → UInt8.ofNat n ∈ bytes) {b : UInt8} :
    b ∈ bytes ↔ p b := by
  have hb := hfind b.toNat b.toNat_lt
  rw [UInt8.ofNat_toNat] at hb
  exact ⟨hpass b, hb⟩

theorem mem_letters {b : UInt8} : b ∈ letters ↔ isWordStart b :=
  mem_iff_of_bytes (by decide +kernel) (by decide +kernel)

theorem mem_decimals {b : UInt8} : b ∈ decimals ↔ Bytes.isDigit b :=
  mem_iff_of_bytes (by decide +kernel) (by decide +kernel)

theorem mem_nameClass {word : Bytes} : word ∈ nameClass.matches' ↔ IsName word := by
  have hbyte : ∀ b, b ∈ letters ++ decimals ↔ isWordByte b := by
    simp [mem_letters, mem_decimals, isWordByte]
  rw [nameClass, mem_anyOf_mul_star]
  constructor
  · rintro ⟨b, rest, rfl, hb, hr⟩
    rw [mem_letters] at hb
    refine ⟨⟨b, rest, rfl, hb⟩, List.forall_mem_cons.2 ⟨by simp [isWordByte, hb], fun c hc ↦ ?_⟩⟩
    exact (hbyte c).1 (hr c hc)
  · rintro ⟨⟨b, rest, rfl, hb⟩, hall⟩
    exact ⟨b, rest, rfl, mem_letters.2 hb, fun c hc ↦ (hbyte c).2 (hall c (.tail _ hc))⟩

theorem mem_digitsClass {word : Bytes} : word ∈ digitsClass.matches' ↔ IsDigits word := by
  rw [digitsClass, mem_anyOf_mul_star]
  constructor
  · rintro ⟨b, rest, rfl, hb, hr⟩
    refine ⟨List.cons_ne_nil _ _, List.forall_mem_cons.2 ⟨mem_decimals.1 hb, fun c hc ↦ ?_⟩⟩
    exact mem_decimals.1 (hr c hc)
  · rintro ⟨hne, hall⟩
    obtain ⟨b, rest, rfl⟩ := List.exists_cons_of_ne_nil hne
    exact ⟨b, rest, rfl, mem_decimals.2 (hall b List.mem_cons_self),
      fun c hc ↦ mem_decimals.2 (hall c (.tail _ hc))⟩

theorem mem_fractionClass {word : Bytes} :
    word ∈ fractionClass.matches' ↔ ∃ digits, word = 46 :: digits ∧ IsDigits digits := by
  rw [fractionClass, RegularExpression.matches'_mul, Language.mem_mul]
  constructor
  · rintro ⟨_, hp, digits, hd, rfl⟩
    obtain ⟨b, hb, rfl⟩ := mem_anyOf.1 hp
    obtain rfl : b = 46 := List.mem_singleton.1 hb
    exact ⟨digits, rfl, mem_digitsClass.1 hd⟩
  · rintro ⟨digits, rfl, hd⟩
    exact ⟨[46], mem_anyOf.2 ⟨46, .head _, rfl⟩, digits, mem_digitsClass.2 hd, rfl⟩

theorem mem_optional {r : RegularExpression UInt8} {word : Bytes} :
    word ∈ (1 + r).matches' ↔ word = [] ∨ word ∈ r.matches' := by
  rw [RegularExpression.matches'_add, Language.mem_add, RegularExpression.matches'_epsilon,
    Language.mem_one]

theorem mem_exponentClass {word : Bytes} :
    word ∈ exponentClass.matches' ↔ ∃ mark sign digits, word = mark :: (sign ++ digits) ∧
      mark ∈ [101, 69] ∧ sign ∈ [[], [43], [45]] ∧ IsDigits digits := by
  have hsign : ∀ sign : Bytes, sign ∈ (1 + anyOf (ascii "+-")).matches' ↔
      sign ∈ [[], [43], [45]] := by
    intro sign
    rw [mem_optional, mem_anyOf, show ascii "+-" = [43, 45] from rfl]
    simp
  rw [exponentClass, RegularExpression.matches'_mul, RegularExpression.matches'_mul,
    Language.mem_mul]
  simp only [Language.mem_mul, hsign, mem_digitsClass, mem_anyOf]
  constructor
  · rintro ⟨_, ⟨mark, hm, rfl⟩, _, ⟨sign, hs, digits, hd, rfl⟩, rfl⟩
    exact ⟨mark, sign, digits, rfl, hm, hs, hd⟩
  · rintro ⟨mark, sign, digits, rfl, hm, hs, hd⟩
    exact ⟨_, ⟨mark, hm, rfl⟩, _, ⟨sign, hs, digits, hd, rfl⟩, rfl⟩

theorem mem_numberClass {word : Bytes} : word ∈ numberClass.matches' ↔ IsFloat word := by
  simp only [numberClass, RegularExpression.matches'_mul, Language.mem_mul, mem_digitsClass,
    mem_optional, mem_fractionClass, mem_exponentClass]
  constructor
  · rintro ⟨whole, hw, _, ⟨fraction, hf, exponent, he, rfl⟩, rfl⟩
    exact ⟨whole, fraction, exponent, rfl, hw, hf, he⟩
  · rintro ⟨whole, fraction, exponent, rfl, hw, hf, he⟩
    exact ⟨whole, hw, _, ⟨fraction, hf, exponent, he, rfl⟩, rfl⟩

theorem mem_floatClass {word : Bytes} : word ∈ floatClass.matches' ↔ IsFloatLiteral word := by
  simp only [floatClass, RegularExpression.matches'_mul, RegularExpression.matches'_add,
    Language.mem_mul, Language.mem_add, mem_digitsClass, mem_fractionClass, mem_exponentClass]
  constructor
  · rintro ⟨whole, hw, _, ⟨_, ⟨fraction, rfl, hf⟩, exponent, he, rfl⟩ |
      ⟨mark, sign, digits, rfl, hm, hs, hd⟩, rfl⟩
    · refine ⟨⟨whole, _, exponent, rfl, hw, .inr ⟨fraction, rfl, hf⟩, he⟩, fun h ↦ ?_⟩
      exact absurd (h.2 46 (by simp)) (by decide)
    · refine ⟨⟨whole, [], _, rfl, hw, .inl rfl, .inr ⟨mark, sign, digits, rfl, hm, hs, hd⟩⟩,
        fun h ↦ ?_⟩
      have hmark := h.2 mark (by simp)
      simp only [List.mem_cons, List.not_mem_nil, or_false] at hm
      rcases hm with rfl | rfl <;> exact absurd hmark (by decide)
  · rintro ⟨⟨whole, fraction, exponent, rfl, hw, hf, he⟩, hnot⟩
    refine ⟨whole, hw, _, ?_, rfl⟩
    rcases hf with rfl | hf
    · rcases he with rfl | he
      · exact absurd (by simpa using hw) hnot
      · exact .inr he
    · exact .inl ⟨fraction, hf, exponent, he, rfl⟩

end PZero.Token
