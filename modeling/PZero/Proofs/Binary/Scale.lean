import Mathlib.Algebra.Order.Field.Power
import Mathlib.Algebra.Order.Field.Rat
import Mathlib.Tactic.FieldSimp
import Mathlib.Tactic.Linarith
import Mathlib.Tactic.NormNum
import Mathlib.Tactic.Positivity
import Mathlib.Tactic.Ring
import PZero.Binary.Format

namespace PZero.Binary

/-- Enough bits for the definitions to make sense. -/
structure Format.Proper (f : Format) : Prop where
  precision : 2 ≤ f.precision
  exponentBits : 2 ≤ f.exponentBits

theorem proper_single : single.Proper := ⟨by decide, by decide⟩

theorem proper_double : double.Proper := ⟨by decide, by decide⟩

variable {f : Format}

namespace Format

theorem lead_pos (f : Format) : 0 < f.lead := Nat.pow_pos Nat.two_pos

theorem Proper.even_lead (hf : f.Proper) : Even f.lead := by
  obtain ⟨k, hk⟩ := Nat.exists_eq_add_of_le hf.precision
  refine ⟨2 ^ k, ?_⟩
  rw [lead, hk, show 2 + k - 1 = k + 1 by omega, Nat.pow_eq, pow_succ]
  omega

theorem Proper.two_lead (hf : f.Proper) : 2 * f.lead = 2 ^ f.precision := by
  have hp : f.precision = f.precision - 1 + 1 := by
    have := hf.precision
    omega
  rw [lead, Nat.pow_eq]
  conv_rhs => rw [hp, pow_succ]
  omega

/-- A number on the scale of a format: a mantissa that may lie between two integers, and how far
its exponent is above the least one. -/
structure Position (f : Format) where
  mantissa : ℚ
  step : ℕ
  small : mantissa < 2 * f.lead
  full : step = 0 ∨ f.lead ≤ mantissa

namespace Position

def value (s : f.Position) : ℚ := s.mantissa * 2 ^ (f.least + s.step)

def place (s : f.Position) : ℚ := s.step * f.lead + s.mantissa

theorem lt_of_step_lt {s t : f.Position} (h : s.step < t.step) :
    s.value < t.value ∧ s.place < t.place := by
  have hfull : (f.lead : ℚ) ≤ t.mantissa := t.full.resolve_left (by omega)
  have hstep : (s.step : ℚ) + 1 ≤ t.step := by exact_mod_cast h
  have hlead : (0 : ℚ) < f.lead := by exact_mod_cast f.lead_pos
  constructor
  · have hpow : (0 : ℚ) < 2 ^ (f.least + s.step) := by positivity
    have hmono : (2 : ℚ) ^ (f.least + s.step + 1) ≤ 2 ^ (f.least + t.step) :=
      zpow_le_zpow_right₀ one_le_two (by omega)
    calc s.value < 2 * f.lead * 2 ^ (f.least + s.step) := mul_lt_mul_of_pos_right s.small hpow
      _ = f.lead * 2 ^ (f.least + s.step + 1) := by rw [zpow_add_one₀ two_ne_zero]; ring
      _ ≤ f.lead * 2 ^ (f.least + t.step) := mul_le_mul_of_nonneg_left hmono hlead.le
      _ ≤ t.value := mul_le_mul_of_nonneg_right hfull (by positivity)
  · calc s.place < s.step * f.lead + 2 * f.lead := by simpa [place] using s.small
      _ = (s.step + 1) * f.lead + f.lead := by ring
      _ ≤ t.step * f.lead + f.lead := by
        simpa using mul_le_mul_of_nonneg_right hstep hlead.le
      _ ≤ t.place := by simpa [place] using hfull

theorem value_le_iff (s t : f.Position) : s.value ≤ t.value ↔ s.place ≤ t.place := by
  rcases lt_trichotomy s.step t.step with h | h | h
  · exact iff_of_true (lt_of_step_lt h).1.le (lt_of_step_lt h).2.le
  · have hpow : (0 : ℚ) < 2 ^ (f.least + t.step) := by positivity
    rw [value, value, place, place, h, mul_le_mul_iff_left₀ hpow, add_le_add_iff_left]
  · exact iff_of_false (lt_of_step_lt h).1.not_ge (lt_of_step_lt h).2.not_ge

end Position

end Format

theorem scaleDown_div (num den : ℕ) (e : ℤ) :
    ((scaleDown num den e).1 : ℚ) / (scaleDown num den e).2 = num / den / 2 ^ e := by
  cases e with
  | ofNat n =>
    simp [scaleDown, div_div]
  | negSucc n =>
    simp [scaleDown, zpow_negSucc, mul_div_right_comm]

theorem scaleDown_den_pos {den : ℕ} (h : 0 < den) (num : ℕ) (e : ℤ) :
    0 < (scaleDown num den e).2 := by
  cases e with
  | ofNat n => exact Nat.mul_pos h (Nat.pow_pos Nat.two_pos)
  | negSucc n => exact h

theorem le_roundDiv_iff (num : ℕ) {den : ℕ} (hden : 0 < den) {n : ℤ} (hn : Even n) :
    n ≤ roundDiv num den ↔ (n : ℚ) - 1 / 2 ≤ num / den := by
  have hpos : (0 : ℚ) < den := by exact_mod_cast hden
  have hclear : (n : ℚ) - 1 / 2 ≤ num / den ↔ (2 * n - 1) * (den : ℤ) ≤ 2 * num := by
    rw [le_div_iff₀ hpos, ← Int.cast_le (R := ℚ)]
    push_cast
    constructor <;> intro h <;> linarith
  have hle : ∀ m : ℤ, n ≤ m → (2 * n - 1) * (den : ℤ) ≤ (2 * m - 1) * den := fun m h ↦
    mul_le_mul_of_nonneg_right (by omega) (by omega)
  have hlt : ∀ m : ℤ, m < n → (2 * m + 1) * (den : ℤ) ≤ (2 * n - 1) * den := fun m h ↦
    mul_le_mul_of_nonneg_right (by omega) (by omega)
  have hnum : (num : ℤ) = den * (num / den : ℕ) + (num % den : ℕ) := by
    exact_mod_cast (Nat.div_add_mod num den).symm
  have hmod := Nat.mod_lt num hden
  rw [hclear, roundDiv]
  generalize num / den = quotient at *
  generalize num % den = rest at *
  have hnear : n ≤ quotient + 1 → 2 * (rest : ℤ) ≥ den → (2 * n - 1) * (den : ℤ) ≤ 2 * num := by
    intro h hrest
    have := hle _ h
    linarith
  split
  · rename_i hbelow
    constructor
    · intro h
      have := hle _ h
      linarith
    · intro h
      by_contra hcon
      have := hlt quotient (by omega)
      zify at hbelow
      linarith
  · split
    · rename_i habove
      zify at habove hmod
      refine ⟨fun h ↦ hnear (by exact_mod_cast h) habove.le, fun h ↦ ?_⟩
      by_contra hcon
      have := hlt (quotient + 1) (by push_cast at hcon; omega)
      linarith
    · have htie : 2 * (rest : ℤ) = den := by omega
      refine ⟨fun h ↦ hnear (by push_cast at h; omega) htie.ge, fun h ↦ ?_⟩
      by_contra hcon
      obtain ⟨k, rfl⟩ := hn
      have := hlt (quotient + 1) (by push_cast at hcon; omega)
      linarith

theorem div_lt_iff_scaleDown {num den : ℕ} (hden : 0 < den) (e : ℤ) (bound : ℕ) :
    (scaleDown num den e).1 / (scaleDown num den e).2 < bound ↔
      (num : ℚ) / den < bound * 2 ^ e := by
  have hpos := scaleDown_den_pos hden num e
  have hpow : (0 : ℚ) < 2 ^ e := by positivity
  rw [Nat.div_lt_iff_lt_mul hpos, ← div_lt_iff₀ hpow, ← scaleDown_div,
    div_lt_iff₀ (by exact_mod_cast hpos)]
  exact_mod_cast Iff.rfl

theorem log2_bounds {num den : ℕ} (hnum : num ≠ 0) (hden : den ≠ 0) :
    (2 : ℚ) ^ ((num.log2 : ℤ) - den.log2 - 1) < num / den ∧
      (num : ℚ) / den < 2 ^ ((num.log2 : ℤ) - den.log2 + 1) := by
  have hpos : (0 : ℚ) < den := by exact_mod_cast Nat.pos_of_ne_zero hden
  have hn₁ : (2 : ℚ) ^ num.log2 ≤ num := by exact_mod_cast Nat.log2_self_le hnum
  have hn₂ : (num : ℚ) < 2 ^ (num.log2 + 1) := by exact_mod_cast Nat.lt_log2_self
  have hd₁ : (2 : ℚ) ^ den.log2 ≤ den := by exact_mod_cast Nat.log2_self_le hden
  have hd₂ : (den : ℚ) < 2 ^ (den.log2 + 1) := by exact_mod_cast Nat.lt_log2_self
  rw [lt_div_iff₀ hpos, div_lt_iff₀ hpos]
  constructor
  · calc (2 : ℚ) ^ ((num.log2 : ℤ) - den.log2 - 1) * den
        < 2 ^ ((num.log2 : ℤ) - den.log2 - 1) * 2 ^ (den.log2 + 1) :=
          mul_lt_mul_of_pos_left hd₂ (by positivity)
      _ = 2 ^ num.log2 := by
        rw [← zpow_natCast, ← zpow_natCast, ← zpow_add₀ two_ne_zero]
        congr 1
        push_cast
        ring
      _ ≤ num := hn₁
  · calc (num : ℚ) < 2 ^ (num.log2 + 1) := hn₂
      _ = 2 ^ ((num.log2 : ℤ) - den.log2 + 1) * 2 ^ den.log2 := by
        rw [← zpow_natCast, ← zpow_natCast, ← zpow_add₀ two_ne_zero]
        congr 1
        push_cast
        ring
      _ ≤ 2 ^ ((num.log2 : ℤ) - den.log2 + 1) * den :=
        mul_le_mul_of_nonneg_left hd₁ (by positivity)

theorem exponentFor_spec (hf : f.Proper) {num den : ℕ} (hnum : num ≠ 0) (hden : den ≠ 0) :
    f.least ≤ exponentFor f num den ∧
      (num : ℚ) / den < 2 * f.lead * 2 ^ exponentFor f num den ∧
      (exponentFor f num den = f.least ∨
        f.lead * 2 ^ exponentFor f num den ≤ (num : ℚ) / den) := by
  set guess : ℤ := (num.log2 : ℤ) - den.log2 - f.precision with hguess
  obtain ⟨hlow, hhigh⟩ := log2_bounds hnum hden
  have htwo : (2 : ℚ) * f.lead = 2 ^ (f.precision : ℤ) := by exact_mod_cast hf.two_lead
  have hlead : (f.lead : ℚ) = 2 ^ ((f.precision : ℤ) - 1) := by
    rw [zpow_sub_one₀ two_ne_zero, ← htwo]
    ring
  have hsmall : (scaleDown num den guess).1 / (scaleDown num den guess).2 < Nat.pow 2 f.precision ↔
      (num : ℚ) / den < 2 * f.lead * 2 ^ guess := by
    rw [div_lt_iff_scaleDown (Nat.pos_of_ne_zero hden), Nat.pow_eq, ← hf.two_lead]
    push_cast
    rfl
  -- The full mantissa holds of the exponent before it is bounded from below.
  obtain ⟨e, he, hbelow, habove⟩ : ∃ e : ℤ, exponentFor f num den = max f.least e ∧
      (num : ℚ) / den < 2 * f.lead * 2 ^ e ∧ f.lead * 2 ^ e ≤ (num : ℚ) / den := by
    by_cases h : (num : ℚ) / den < 2 * f.lead * 2 ^ guess
    · refine ⟨guess, ?_, h, ?_⟩
      · simp only [exponentFor, ← hguess, if_pos (hsmall.2 h)]
      · rw [hlead, ← zpow_add₀ two_ne_zero]
        refine le_of_eq_of_le ?_ hlow.le
        congr 1
        omega
    · refine ⟨guess + 1, ?_, ?_, ?_⟩
      · simp only [exponentFor, ← hguess, if_neg (hsmall.not.2 h)]
      · rw [htwo, ← zpow_add₀ two_ne_zero]
        refine lt_of_lt_of_eq hhigh ?_
        congr 1
        omega
      · rw [zpow_add_one₀ two_ne_zero]
        linarith
  rw [he]
  refine ⟨le_max_left _ _, ?_, ?_⟩
  · refine hbelow.trans_le (mul_le_mul_of_nonneg_left ?_ (by positivity))
    exact zpow_le_zpow_right₀ one_le_two (le_max_right _ _)
  · rcases max_choice f.least e with h | h
    · exact .inl h
    · rw [h]
      exact .inr habove

/-- A number is rounded by rounding its place to the nearest integer, a half to the even one. -/
theorem exists_position (hf : f.Proper) (num : ℕ) {den : ℕ} (hden : 0 < den) :
    ∃ s : f.Position, s.value = num / den ∧ ∀ n : ℕ, Even n → n ≤ f.infinity →
      (n ≤ roundMagnitude f num den ↔ (n : ℚ) - 1 / 2 ≤ s.place) := by
  have hlead : (0 : ℚ) < f.lead := by exact_mod_cast f.lead_pos
  by_cases hnum : num = 0
  · refine ⟨⟨0, 0, by positivity, .inl rfl⟩, by simp [Format.Position.value, hnum], ?_⟩
    intro n _ _
    have hplace : (n : ℚ) - 1 / 2 ≤ 0 ↔ 2 * n ≤ 1 := by
      rw [← Nat.cast_le (α := ℚ)]
      push_cast
      constructor <;> intro h <;> linarith
    simp only [roundMagnitude, hnum, if_true, Format.Position.place, Nat.cast_zero, zero_mul,
      add_zero, hplace]
    omega
  · obtain ⟨hleast, hbelow, habove⟩ := exponentFor_spec hf hnum hden.ne'
    generalize he : exponentFor f num den = e at *
    have hstep : f.least + ((e - f.least).toNat : ℤ) = e := by omega
    have hpow : (0 : ℚ) < 2 ^ e := by positivity
    refine ⟨⟨num / den / 2 ^ e, (e - f.least).toNat, ?_, ?_⟩, ?_, ?_⟩
    · rwa [div_lt_iff₀ hpow]
    · refine habove.imp (fun h ↦ ?_) fun h ↦ ?_
      · simp [h]
      · rwa [le_div_iff₀ hpow]
    · rw [Format.Position.value, hstep]
      field_simp
    · intro n hn hinf
      have hround := le_roundDiv_iff (scaleDown num den e).1 (scaleDown_den_pos hden num e)
        (((Int.even_coe_nat n).2 hn).sub
          (((Int.even_coe_nat f.lead).2 hf.even_lead).mul_left (e - f.least).toNat))
      rw [scaleDown_div] at hround
      simp only [roundMagnitude, hnum, if_false, he, le_min_iff, hinf, true_and,
        Format.Position.place]
      rw [← sub_le_iff_le_add', sub_right_comm]
      push_cast at hround
      rw [← hround]
      omega

theorem roundMagnitude_le (f : Format) (num den : ℕ) : roundMagnitude f num den ≤ f.infinity := by
  unfold roundMagnitude
  split
  · exact Nat.zero_le _
  · exact Nat.min_le_left _ _

theorem Format.Proper.four_le (hf : f.Proper) : 4 ≤ Nat.pow 2 f.exponentBits :=
  Nat.pow_le_pow_right Nat.two_pos hf.exponentBits

/-- The least number that is rounded to infinity: half a unit beyond the largest pattern. -/
def Format.brink (f : Format) : f.Position where
  mantissa := 2 * f.lead - 1 / 2
  step := Nat.pow 2 f.exponentBits - 3
  small := by linarith
  full := by
    have hlead : (1 : ℚ) ≤ f.lead := by exact_mod_cast f.lead_pos
    exact .inr (by linarith)

theorem Format.Proper.place_brink (hf : f.Proper) :
    f.brink.place = (f.infinity : ℚ) - 1 / 2 := by
  obtain ⟨k, hk⟩ := Nat.exists_eq_add_of_le hf.four_le
  simp only [Position.place, brink, infinity, hk, show 4 + k - 3 = k + 1 by omega,
    show 4 + k - 1 = k + 3 by omega]
  push_cast
  ring

theorem roundMagnitude_eq_infinity_iff (hf : f.Proper) (num : ℕ) {den : ℕ} (hden : 0 < den) :
    roundMagnitude f num den = f.infinity ↔ f.brink.value ≤ num / den := by
  obtain ⟨s, hs, hround⟩ := exists_position hf num hden
  have heven : Even f.infinity := hf.even_lead.mul_left _
  rw [← hs, Format.Position.value_le_iff, hf.place_brink, ← hround _ heven le_rfl]
  exact (roundMagnitude_le f num den).ge_iff_eq.symm

theorem fields_withSign (hf : f.Proper) (negative : Bool) {n : ℕ} (hn : n ≤ f.infinity) :
    decide (f.signBit ≤ withSign f negative n) = negative ∧
      withSign f negative n / f.lead % Nat.pow 2 f.exponentBits = n / f.lead ∧
      withSign f negative n % f.lead = n % f.lead := by
  have hpos := f.lead_pos
  have hfield : n / f.lead < Nat.pow 2 f.exponentBits := by
    have hle : n / f.lead ≤ Nat.pow 2 f.exponentBits - 1 :=
      Nat.div_le_of_le_mul (hn.trans_eq (mul_comm _ f.lead))
    have := hf.four_le
    omega
  have hbelow : n < f.signBit := by
    rw [Format.signBit]
    exact (Nat.div_lt_iff_lt_mul hpos).1 hfield
  cases negative with
  | false =>
    refine ⟨decide_eq_false hbelow.not_ge, ?_, rfl⟩
    exact Nat.mod_eq_of_lt hfield
  | true =>
    simp only [withSign, if_true, Format.signBit]
    refine ⟨decide_eq_true (Nat.le_add_right _ _), ?_, ?_⟩
    · rw [mul_comm, Nat.mul_add_div hpos, Nat.add_mod_left, Nat.mod_eq_of_lt hfield]
    · rw [Nat.mul_add_mod_self_right]

theorem decode_infinity (hf : f.Proper) (negative : Bool) :
    decode f (withSign f negative f.infinity) = .infinite negative := by
  obtain ⟨hsign, hfield, hfraction⟩ := fields_withSign hf negative le_rfl
  have hall : f.infinity / f.lead = Nat.pow 2 f.exponentBits - 1 :=
    Nat.mul_div_cancel _ f.lead_pos
  have hzero : f.infinity % f.lead = 0 := Nat.mul_mod_left _ _
  simp only [decode, hsign, hfield, hfraction, hall, hzero, if_true]

theorem decode_finite (hf : f.Proper) (negative : Bool) {n : ℕ} (hn : n < f.infinity) :
    ∃ (mantissa : ℕ) (exponent : ℤ) (s : f.Position),
      decode f (withSign f negative n) = .finite negative mantissa exponent ∧
      s.value = mantissa * 2 ^ exponent ∧ s.place = n := by
  obtain ⟨hsign, hfield, hfraction⟩ := fields_withSign hf negative hn.le
  have hpos := f.lead_pos
  have hmod : n % f.lead < f.lead := Nat.mod_lt n hpos
  have hdiv : (n : ℚ) = (n / f.lead : ℕ) * f.lead + (n % f.lead : ℕ) := by
    exact_mod_cast (Nat.div_add_mod' n f.lead).symm
  have hnot : n / f.lead ≠ Nat.pow 2 f.exponentBits - 1 :=
    ((Nat.div_lt_iff_lt_mul hpos).2 hn).ne
  simp only [decode, hsign, hfield, hfraction, hnot, if_false]
  by_cases hzero : n / f.lead = 0
  · refine ⟨n % f.lead, f.least, ⟨(n % f.lead : ℕ), 0, ?_, .inl rfl⟩, by simp [hzero], ?_, ?_⟩
    · exact_mod_cast (by omega : n % f.lead < 2 * f.lead)
    · simp [Format.Position.value]
    · rw [hdiv, hzero]
      simp [Format.Position.place]
  · obtain ⟨k, hk⟩ := Nat.exists_eq_succ_of_ne_zero hzero
    refine ⟨f.lead + n % f.lead, f.least + ((n / f.lead : ℕ) - 1),
      ⟨(f.lead + n % f.lead : ℕ), k, ?_, .inr ?_⟩, by simp [hzero], ?_, ?_⟩
    · exact_mod_cast (by omega : f.lead + n % f.lead < 2 * f.lead)
    · exact_mod_cast Nat.le_add_right _ _
    · simp [Format.Position.value, hk]
    · rw [hdiv, hk]
      simp only [Format.Position.place]
      push_cast
      ring

end PZero.Binary
