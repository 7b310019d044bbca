import Mathlib.Tactic.Common
import PZero.Proofs.Typing.Rules

namespace PZero.Binary.Numeral

open Surface (IsDigits IsFraction IsExponent IsFloat)

def IsPlain (b : UInt8) : Prop := Bytes.isDigit b ∨ b ∈ [46, 101, 69, 43, 45]

theorem IsPlain.lowerByte_ne {b : UInt8} (h : IsPlain b) :
    Bytes.lowerByte b ≠ 110 ∧ Bytes.lowerByte b ≠ 120 ∧ b ≠ 95 := by
  rcases h with h | h
  · simp only [Bytes.isDigit, Bool.and_eq_true, decide_eq_true_eq, UInt8.le_iff_toNat_le] at h
    have hl : Bytes.lowerByte b = b := by
      have hn : ¬65 ≤ b := by
        rw [UInt8.le_iff_toNat_le]
        intro h'
        exact absurd (Nat.le_trans h' h.2) (by decide)
      simp [Bytes.lowerByte, hn]
    rw [hl]
    refine ⟨?_, ?_, ?_⟩ <;> rintro rfl <;> exact absurd h.2 (by decide)
  · simp only [List.mem_cons, List.not_mem_nil, or_false] at h
    rcases h with rfl | rfl | rfl | rfl | rfl <;> decide

theorem isPlain_digits {text : Bytes} (h : IsDigits text) : ∀ b ∈ text, IsPlain b :=
  fun b hb ↦ .inl (h.2 b hb)

theorem isPlain_float {text : Bytes} (h : IsFloat text) : ∀ b ∈ text, IsPlain b := by
  obtain ⟨whole, fraction, exponent, rfl, hw, hf, he⟩ := h
  intro b hb
  rcases List.mem_append.1 hb with hb | hb
  · exact isPlain_digits hw b hb
  rcases List.mem_append.1 hb with hb | hb
  · rcases hf with rfl | ⟨digits, rfl, hd⟩
    · cases hb
    · rcases List.mem_cons.1 hb with rfl | hb
      · exact .inr (by decide)
      · exact isPlain_digits hd b hb
  · rcases he with rfl | ⟨mark, sign, digits, rfl, hm, hs, hd⟩
    · cases hb
    rcases List.mem_cons.1 hb with rfl | hb
    · simp only [List.mem_cons, List.not_mem_nil, or_false] at hm
      rcases hm with rfl | rfl <;> exact .inr (by decide)
    rcases List.mem_append.1 hb with hb | hb
    · simp only [List.mem_cons, List.not_mem_nil, or_false] at hs
      rcases hs with rfl | rfl | rfl
      · cases hb
      all_goals
        rw [List.mem_singleton.1 hb]
        exact .inr (by decide)
    · exact isPlain_digits hd b hb

theorem digit_ne {b : UInt8} (h : Bytes.isDigit b) : b ≠ 95 ∧ b ≠ 46 ∧ b ≠ 43 ∧ b ≠ 45 := by
  refine ⟨?_, ?_, ?_, ?_⟩ <;> rintro rfl <;> exact absurd h (by decide)

theorem readDigits_append (afterPoint : Bool) {digits : Bytes} (rest : Bytes)
    (h : ∀ b ∈ digits, Bytes.isDigit b) (d : Digits) :
    ∃ d', readDigits 10 afterPoint d (digits ++ rest) = readDigits 10 afterPoint d' rest ∧
      d'.seen = (d.seen || !digits.isEmpty) := by
  induction digits generalizing d with
  | nil => exact ⟨d, rfl, by simp⟩
  | cons b digits ih =>
    have hb := h b List.mem_cons_self
    obtain ⟨hu, hp, -, -⟩ := digit_ne hb
    obtain ⟨d', hd, hs⟩ := ih (fun c hc ↦ h c (List.mem_cons_of_mem _ hc))
      { d with
        value := d.value * 10 + (b.toNat - 48)
        places := if afterPoint then d.places + 1 else d.places
        seen := true }
    refine ⟨d', ?_, by simp [hs]⟩
    rw [← hd]
    simp [readDigits, hu, hp, digit?, hb]

theorem readDigits_exponent (afterPoint : Bool) {exponent : Bytes} (h : IsExponent exponent)
    (d : Digits) : readDigits 10 afterPoint d exponent = { d with rest := exponent } := by
  rcases h with rfl | ⟨mark, sign, digits, rfl, hm, -, -⟩
  · rfl
  · simp only [List.mem_cons, List.not_mem_nil, or_false] at hm
    rcases hm with rfl | rfl <;> simp [readDigits, digit?, Bytes.isDigit]

theorem readDigits_float {whole fraction exponent : Bytes} (hw : IsDigits whole)
    (hf : IsFraction fraction) (he : IsExponent exponent) (d : Digits) :
    (readDigits 10 false d (whole ++ (fraction ++ exponent))).seen = true ∧
      (readDigits 10 false d (whole ++ (fraction ++ exponent))).rest = exponent := by
  obtain ⟨d₁, h₁, hs₁⟩ := readDigits_append false (fraction ++ exponent) hw.2 d
  have hseen : d₁.seen = true := by
    rw [hs₁]
    cases whole with
    | nil => exact absurd rfl hw.1
    | cons b whole => simp
  rw [h₁]
  rcases hf with rfl | ⟨digits, rfl, hd⟩
  · rw [List.nil_append, readDigits_exponent false he]
    exact ⟨hseen, rfl⟩
  · obtain ⟨d₂, h₂, hs₂⟩ := readDigits_append true exponent hd.2 d₁
    have hpoint : readDigits 10 false d₁ (46 :: digits ++ exponent) =
        readDigits 10 true d₁ (digits ++ exponent) := by
      simp [readDigits]
    rw [hpoint, h₂, readDigits_exponent true he]
    exact ⟨by simp [hs₂, hseen], rfl⟩

theorem readExponentDigits_digits {digits : Bytes} (h : ∀ b ∈ digits, Bytes.isDigit b) (e : Nat) :
    (readExponentDigits e digits).2 = [] := by
  induction digits generalizing e with
  | nil => rfl
  | cons b digits ih =>
    have hb := h b List.mem_cons_self
    have hu := (digit_ne hb).1
    simp only [readExponentDigits, hu, if_false, hb, if_true]
    exact ih (fun c hc ↦ h c (List.mem_cons_of_mem _ hc)) _

theorem takeSign_digits {digits : Bytes} (h : IsDigits digits) (rest : Bytes) :
    takeSign (digits ++ rest) = (false, digits ++ rest) := by
  obtain ⟨b, tail, rfl⟩ := List.exists_cons_of_ne_nil h.1
  obtain ⟨-, -, hp, hm⟩ := digit_ne (h.2 b List.mem_cons_self)
  simp only [List.cons_append]
  unfold takeSign
  split
  · rename_i he
    exact absurd (List.cons.inj he).1 hp
  · rename_i he
    exact absurd (List.cons.inj he).1 hm
  · rfl

theorem readExponent?_exponent {exponent : Bytes} (h : IsExponent exponent) :
    ∃ e, readExponent? 101 exponent = some (e, []) := by
  rcases h with rfl | ⟨mark, sign, digits, rfl, hm, hs, hd⟩
  · exact ⟨none, rfl⟩
  · have hmark : Bytes.lowerByte mark = 101 := by
      simp only [List.mem_cons, List.not_mem_nil, or_false] at hm
      rcases hm with rfl | rfl <;> rfl
    have hsign : ∃ negative, takeSign (sign ++ digits) = (negative, digits) := by
      simp only [List.mem_cons, List.not_mem_nil, or_false] at hs
      rcases hs with rfl | rfl | rfl
      · have := takeSign_digits hd []
        simp only [List.append_nil] at this
        exact ⟨false, this⟩
      · exact ⟨false, rfl⟩
      · exact ⟨true, rfl⟩
    obtain ⟨negative, hsign⟩ := hsign
    have hread := readExponentDigits_digits hd.2 0
    obtain ⟨b, tail, rfl⟩ := List.exists_cons_of_ne_nil hd.1
    have hb := hd.2 b List.mem_cons_self
    simp only [readExponent?, hmark, if_true, hsign, hb, hread]
    exact ⟨_, rfl⟩

theorem mem_lowered {text : Bytes} {c : UInt8} (h : c ∈ lowered text) :
    ∃ b ∈ text, Bytes.lowerByte b = c := List.mem_map.1 h

theorem decimalRatio_eq (negative : Bool) (value : Nat) (exponent : Int) :
    ∃ num den, decimalRatio negative value exponent = .ratio negative num den ∧ 0 < den := by
  simp only [decimalRatio]
  split
  · exact ⟨0, 1, rfl, Nat.one_pos⟩
  split
  · exact ⟨_, 1, rfl, Nat.one_pos⟩
  split
  · exact ⟨_, 1, rfl, Nat.one_pos⟩
  · exact ⟨_, _, rfl, Nat.pow_pos (by decide)⟩

theorem readNumber?_float {text unsigned : Bytes} {negative : Bool} (h : IsFloat unsigned)
    (ht : takeSign text = (negative, unsigned)) (hp : ∀ b ∈ text, IsPlain b) :
    ∃ num den, readNumber? text = some (.ratio negative num den) ∧ 0 < den := by
  have hx : (lowered (unsigned.take 2) == ascii "0x") = false := by
    rw [beq_eq_false_iff_ne]
    intro he
    have hm : (120 : UInt8) ∈ lowered (unsigned.take 2) := by
      rw [he]
      decide
    obtain ⟨b, hb, hl⟩ := mem_lowered hm
    exact (isPlain_float h b (List.mem_of_mem_take hb)).lowerByte_ne.2.1 hl
  have hu : text.contains 95 = false := by
    rw [List.contains_eq_mem, decide_eq_false_iff_not]
    exact fun hm ↦ (hp 95 hm).lowerByte_ne.2.2 rfl
  obtain ⟨whole, fraction, exponent, rfl, hw, hf, he⟩ := h
  obtain ⟨hseen, hrest⟩ := readDigits_float hw hf he ⟨0, 0, false, []⟩
  obtain ⟨e, hexp⟩ := readExponent?_exponent he
  simp only [readNumber?, ht, hx, Bool.and_false, Bool.false_eq_true, if_false, hseen, hrest, hexp,
    hu, ne_eq, not_true_eq_false, decide_false, Bool.not_false, Bool.true_or, Bool.not_true,
    Bool.or_self]
  obtain ⟨num, den, hratio, hden⟩ := decimalRatio_eq negative
    (readDigits 10 false ⟨0, 0, false, []⟩ (whole ++ (fraction ++ exponent))).value
    (e.getD 0 - (readDigits 10 false ⟨0, 0, false, []⟩ (whole ++ (fraction ++ exponent))).places)
  exact ⟨num, den, congrArg some hratio, hden⟩

theorem read?_float {text : Bytes} (h : IsFloat text) (negative : Bool) :
    ∃ num den, read? (Typing.shown text negative) = some (.ratio negative num den) ∧ 0 < den := by
  have hs : takeSign (Typing.shown text negative) = (negative, text) := by
    cases negative with
    | true => rfl
    | false =>
      obtain ⟨whole, fraction, exponent, rfl, hw, -, -⟩ := h
      exact takeSign_digits hw _
  have hp : ∀ b ∈ Typing.shown text negative, IsPlain b := by
    intro b hb
    cases negative with
    | false => exact isPlain_float h b hb
    | true =>
      rcases List.mem_cons.1 hb with rfl | hb
      · exact .inr (by decide)
      · exact isPlain_float h b hb
  have word : ∀ {t w : Bytes}, (∀ b ∈ t, IsPlain b) → 110 ∈ w → lowered t ≠ w := by
    rintro t w ht hw rfl
    obtain ⟨b, hb, hl⟩ := mem_lowered hw
    exact (ht b hb).lowerByte_ne.1 hl
  have hi := word (isPlain_float h) (w := ascii "inf") (by decide)
  have hy := word (isPlain_float h) (w := ascii "infinity") (by decide)
  have hn := word hp (w := ascii "nan") (by decide)
  obtain ⟨num, den, hread, hden⟩ := readNumber?_float h hs hp
  refine ⟨num, den, ?_, hden⟩
  simp only [read?, hs, hi, hy, hn, hread, decide_false, Bool.or_self, Bool.false_eq_true,
    if_false]

end PZero.Binary.Numeral

namespace PZero.Typing

open Surface (IsDigits IsFloat)

theorem readInt?_digits {text : Bytes} (h : IsDigits text) (negative : Bool) :
    readInt? (shown text negative) =
      some (if negative then -(Bytes.digitsValue text : Int) else Bytes.digitsValue text) := by
  have hd : (decide (text ≠ []) && text.all Bytes.isDigit) = true := by
    simp only [Bool.and_eq_true, decide_eq_true_eq, List.all_eq_true]
    exact h
  cases negative with
  | true =>
    simp only [shown, if_true, readInt?]
    rw [if_pos hd]
  | false =>
    obtain ⟨b, rest, rfl⟩ := List.exists_cons_of_ne_nil h.1
    obtain ⟨-, -, hp, hm⟩ := Binary.Numeral.digit_ne (h.2 b List.mem_cons_self)
    simp only [shown, Bool.false_eq_true, if_false, readInt?]
    split
    · rename_i hcons
      exact absurd (List.cons.inj hcons).1 hp
    · rename_i hcons
      exact absurd (List.cons.inj hcons).1 hm
    · rw [if_pos hd]
      rfl

theorem intLiteral_iff {text : Bytes} (h : IsDigits text) {place : Span} {v : Typed.Literal} :
    intLiteral text false place = (v, []) ↔
      Bytes.digitsValue text < 0x80000000 ∧ v = .int (Bytes.digitsValue text) := by
  unfold intLiteral
  simp only [readInt?_digits h, Bool.false_eq_true, if_false]
  split
  · rename_i hr
    simp only [Bool.and_eq_true, decide_eq_true_eq] at hr
    simp only [Prod.mk.injEq, and_true, eq_comm]
    exact ⟨fun hv ↦ ⟨by omega, hv⟩, fun hv ↦ hv.2⟩
  · rename_i hr
    simp only [Bool.and_eq_true, decide_eq_true_eq, not_and] at hr
    simp only [Prod.mk.injEq, reduceCtorEq, and_false, false_iff, not_and]
    omega

theorem intLiteral_negative_iff {text : Bytes} (h : IsDigits text) {place : Span}
    {v : Typed.Literal} :
    intLiteral text true place = (v, []) ↔
      Bytes.digitsValue text ≤ 0x80000000 ∧ v = .int (-(Bytes.digitsValue text : Int)) := by
  unfold intLiteral
  simp only [readInt?_digits h, if_true]
  split
  · rename_i hr
    simp only [Bool.and_eq_true, decide_eq_true_eq] at hr
    simp only [Prod.mk.injEq, and_true, eq_comm]
    exact ⟨fun hv ↦ ⟨by omega, hv⟩, fun hv ↦ hv.2⟩
  · rename_i hr
    simp only [Bool.and_eq_true, decide_eq_true_eq, not_and] at hr
    simp only [Prod.mk.injEq, reduceCtorEq, and_false, false_iff, not_and]
    omega

theorem floatLiteral_iff {text : Bytes} (h : IsFloat text) {negative : Bool} {place : Span}
    {v : Typed.Literal} :
    floatLiteral text negative place = (v, []) ↔
      ∃ bits, DenotesFloat (shown text negative) bits ∧ v = .float bits := by
  obtain ⟨num, den, hn, -⟩ := Binary.Numeral.read?_float h negative
  simp only [floatLiteral, hn, Prod.mk.injEq, DenotesFloat, Option.some.injEq]
  constructor
  · rintro ⟨rfl, ho⟩
    refine ⟨_, ⟨.ratio negative num den, rfl, ?_, rfl⟩, rfl⟩
    cases hov : (Binary.Numeral.ratio negative num den).overflows Binary.single with
    | false => rfl
    | true => simp [hov] at ho
  · rintro ⟨bits, ⟨n', rfl, ho, rfl⟩, rfl⟩
    exact ⟨rfl, by simp [ho]⟩

theorem initializer_iff {value : Surface.Expr} {v : Typed.Literal} (hs : value.IsInitializer) :
    initializer value = (v, []) ↔ Initial value v := by
  cases value with
  | bool b span =>
    simp only [initializer, Prod.mk.injEq, and_true]
    constructor
    · rintro rfl
      exact .bool b span
    · rintro ⟨⟩
      rfl
  | int text span =>
    rw [initializer, intLiteral_iff hs]
    constructor
    · rintro ⟨hr, rfl⟩
      exact .int span hr
    · rintro ⟨⟩
      exact ⟨‹_›, rfl⟩
  | float text span =>
    rw [initializer, floatLiteral_iff hs]
    constructor
    · rintro ⟨bits, hd, rfl⟩
      exact .float span hd
    · rintro ⟨⟩
      exact ⟨_, ‹_›, rfl⟩
  | unary op operand span =>
    obtain ⟨ho, hn⟩ := hs
    cases operand with
    | int text inner =>
      cases op with
      | not => exact absurd rfl ho
      | negate =>
        refine (intLiteral_negative_iff hn).trans ⟨?_, ?_⟩
        · rintro ⟨hr, rfl⟩
          exact .negativeInt inner span hr
        · intro h
          cases h with
          | negativeInt _ _ hr => exact ⟨hr, rfl⟩
      | identity =>
        refine (intLiteral_iff hn).trans ⟨?_, ?_⟩
        · rintro ⟨hr, rfl⟩
          exact .positive span hn (.int inner hr)
        · intro h
          cases h with
          | positive _ _ h =>
            cases h with
            | int _ hr => exact ⟨hr, rfl⟩
    | float text inner =>
      cases op with
      | not => exact absurd rfl ho
      | negate =>
        refine (floatLiteral_iff hn).trans ⟨?_, ?_⟩
        · rintro ⟨bits, hd, rfl⟩
          exact .negativeFloat inner span hd
        · intro h
          cases h with
          | negativeFloat _ _ hd => exact ⟨_, hd, rfl⟩
      | identity =>
        refine (floatLiteral_iff hn).trans ⟨?_, ?_⟩
        · rintro ⟨bits, hd, rfl⟩
          exact .positive span hn (.float inner hd)
        · intro h
          cases h with
          | positive _ _ h =>
            cases h with
            | float _ hd => exact ⟨_, hd, rfl⟩
    | _ => exact hn.elim
  | _ => exact hs.elim

theorem Initial.type_eq {value : Surface.Expr} {v : Typed.Literal} (h : Initial value v) :
    initializerType value = v.type := by
  induction h with
  | positive _ _ _ ih => exact ih
  | _ => rfl

end PZero.Typing
