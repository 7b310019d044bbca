import Mathlib.Algebra.Ring.Int.Defs
import Mathlib.Algebra.Ring.Nat
import Mathlib.Data.List.Basic
import Mathlib.Tactic.Common
import PZero.Options

namespace PZero.Options

open Bytes (isDigit digitsValue)

/-- The signed word of 64 bits that a number leaves. -/
def wrapped (v : Nat) : Int := (v : Int).bmod 0x10000000000000000

theorem wrapped_of_lt {v : Nat} (h : v < 2 ^ 63) : wrapped v = v :=
  Int.bmod_eq_of_le (by omega) (by omega)

theorem wrapped_lt (v : Nat) : wrapped v < 2 ^ 63 := by
  have h := Int.bmod_lt (x := v) (m := 0x10000000000000000) (by decide)
  unfold wrapped
  omega

theorem lt_of_wrapped_pos {v : Nat} (hlt : v < 2 ^ 64) (hpos : 0 < wrapped v) : v < 2 ^ 63 := by
  by_contra hge
  have hv : wrapped v = v - 2 ^ 64 := by
    unfold wrapped
    rw [← Int.sub_bmod_right]
    exact Int.bmod_eq_of_le (by omega) (by omega)
  omega

theorem wrapped_step (v d : Nat) :
    (wrapped v * 10 + d).bmod 0x10000000000000000 = wrapped (v * 10 + d) := by
  unfold wrapped
  rw [← Int.bmod_add_bmod, Int.bmod_mul_bmod, Int.bmod_add_bmod, Int.natCast_add, Int.natCast_mul,
    Int.cast_ofNat_Int]

def valueFrom (v : Nat) (digits : Bytes) : Nat :=
  digits.foldl (fun n b ↦ n * 10 + (b.toNat - 48)) v

theorem valueFrom_cons (v : Nat) (b : UInt8) (rest : Bytes) :
    valueFrom v (b :: rest) = valueFrom (v * 10 + (b.toNat - 48)) rest := by
  unfold valueFrom
  exact List.foldl_cons

theorem le_valueFrom (v : Nat) (digits : Bytes) : v ≤ valueFrom v digits := by
  induction digits generalizing v with
  | nil => exact Nat.le_refl v
  | cons b rest ih =>
    have h := ih (v * 10 + (b.toNat - 48))
    rw [valueFrom_cons]
    omega

theorem valueFrom_append (v : Nat) (front rest : Bytes) :
    valueFrom v (front ++ rest) = valueFrom (valueFrom v front) rest := List.foldl_append

/-- The word is positive behind every digit. -/
def StaysPositive (v : Nat) (digits : Bytes) : Prop :=
  ∀ front, front <+: digits → front ≠ [] → 0 < wrapped (valueFrom v front)

theorem staysPositive_cons (v : Nat) (b : UInt8) (rest : Bytes) :
    StaysPositive v (b :: rest) ↔
      0 < wrapped (v * 10 + (b.toNat - 48)) ∧ StaysPositive (v * 10 + (b.toNat - 48)) rest := by
  constructor
  · intro h
    refine ⟨h [b] (List.prefix_append [b] rest) (List.cons_ne_nil b []), ?_⟩
    intro front hf _
    exact h (b :: front) (List.prefix_cons_inj b |>.2 hf) (List.cons_ne_nil b front)
  · intro ⟨hb, h⟩ front hf hne
    obtain hnil | ⟨t, rfl, ht⟩ := List.prefix_cons_iff.1 hf
    · exact absurd hnil hne
    rw [valueFrom_cons]
    cases t with
    | nil => exact hb
    | cons c t => exact h (c :: t) ht (List.cons_ne_nil c t)

theorem countFrom_eq_ok_iff (v : Nat) (digits : Bytes) (n : Int) :
    countFrom (wrapped v) digits = .ok n ↔
      (∀ b ∈ digits, isDigit b = true) ∧ StaysPositive v digits ∧
        n = wrapped (valueFrom v digits) := by
  induction digits generalizing v with
  | nil =>
    have hnil : StaysPositive v [] := fun front hf hne ↦ absurd (List.prefix_nil.1 hf) hne
    simp only [countFrom, Except.ok.injEq, List.not_mem_nil, false_imp_iff, implies_true, true_and,
      hnil]
    exact eq_comm
  | cons b rest ih =>
    rw [staysPositive_cons, valueFrom_cons, List.forall_mem_cons]
    unfold countFrom
    by_cases hb : isDigit b = true
    · by_cases hpos : 0 < wrapped (v * 10 + (b.toNat - 48))
      · rw [if_pos hb, wrapped_step, if_neg (Int.not_le.2 hpos), ih]
        simp only [hb, hpos, true_and]
      · rw [if_pos hb, wrapped_step, if_pos (Int.not_lt.1 hpos)]
        simp only [reduceCtorEq, hpos, false_and, and_false]
    · rw [if_neg hb]
      simp only [reduceCtorEq, hb, false_and, Bool.false_eq_true]

/-- A row of digits whose words never show an overflow. -/
structure Passes (text : Bytes) : Prop where
  nonempty : text ≠ []
  digits : ∀ b ∈ text, isDigit b = true
  positive : StaysPositive 0 text

theorem count_eq_ok_iff (text : Bytes) (n : Int) :
    count text = .ok n ↔ Passes text ∧ n = wrapped (digitsValue text) := by
  have h := countFrom_eq_ok_iff 0 text n
  unfold count
  by_cases hne : text = []
  · rw [if_pos hne]
    exact ⟨(nomatch ·), fun hp ↦ absurd hne hp.1.nonempty⟩
  · rw [if_neg hne]
    refine ⟨fun he ↦ ?_, fun ⟨hp, hn⟩ ↦ h.2 ⟨hp.digits, hp.positive, hn⟩⟩
    obtain ⟨hd, hp, hn⟩ := h.1 he
    exact ⟨⟨hne, hd, hp⟩, hn⟩

theorem passes_iff_of_lt {text : Bytes} (hlt : digitsValue text < 2 ^ 63) :
    Passes text ↔ text ≠ [] ∧ (∀ b ∈ text, isDigit b = true) ∧ text.head? ≠ some 48 := by
  constructor
  · intro h
    refine ⟨h.nonempty, h.digits, fun hz ↦ ?_⟩
    obtain ⟨rest, rfl⟩ := List.head?_eq_some_iff.1 hz
    have hpos := (staysPositive_cons 0 48 rest).1 h.positive |>.1
    exact absurd hpos (by decide)
  · intro ⟨hne, hd, hz⟩
    refine ⟨hne, hd, fun front ⟨rest, hfront⟩ hf ↦ ?_⟩
    have hle : valueFrom 0 front ≤ digitsValue text := by
      rw [← hfront]
      exact Nat.le_trans (le_valueFrom _ rest) (Nat.le_of_eq (valueFrom_append 0 front rest).symm)
    rw [wrapped_of_lt (by omega)]
    obtain ⟨b, tail, rfl⟩ := List.exists_cons_of_ne_nil hf
    have hb : isDigit b = true := hd b (by rw [← hfront]; exact List.mem_cons_self)
    have hb0 : b ≠ 48 := by
      intro he
      rw [← hfront, he] at hz
      exact hz rfl
    have h48 : 48 < b.toNat := by
      simp only [isDigit, Bool.and_eq_true, decide_eq_true_eq, UInt8.le_iff_toNat_le] at hb
      have hne' : b.toNat ≠ 48 := fun h ↦ hb0 (UInt8.toNat_inj.1 h)
      have h48' : (48 : UInt8).toNat = 48 := rfl
      omega
    have := le_valueFrom (0 * 10 + (b.toNat - 48)) tail
    rw [valueFrom_cons]
    omega

/-- The texts that are accepted, the counts they give, and which of these are the numbers that are
written: exactly those that are smaller than a word. -/
theorem count_exact_iff (text : Bytes) :
    (∀ n, count text = .ok n ↔ Passes text ∧ n = wrapped (digitsValue text)) ∧
    (Passes text → (wrapped (digitsValue text) = digitsValue text ↔ digitsValue text < 2 ^ 64)) ∧
    (digitsValue text < 2 ^ 63 →
      (Passes text ↔ text ≠ [] ∧ (∀ b ∈ text, isDigit b = true) ∧ text.head? ≠ some 48)) := by
  refine ⟨count_eq_ok_iff text, fun h ↦ ?_, passes_iff_of_lt⟩
  have hpos : 0 < wrapped (digitsValue text) :=
    h.positive text (List.prefix_refl text) h.nonempty
  constructor
  · intro he
    have := wrapped_lt (digitsValue text)
    omega
  · intro hlt
    exact wrapped_of_lt (lt_of_wrapped_pos hlt hpos)

theorem utmost_count_is_exact :
    digitsValue (ascii "9223372036854775807") < 2 ^ 63 ∧ Passes (ascii "9223372036854775807") ∧
      count (ascii "9223372036854775807") = .ok 9223372036854775807 := by
  have hlt : digitsValue (ascii "9223372036854775807") < 2 ^ 63 := by decide +kernel
  have hp : Passes (ascii "9223372036854775807") :=
    ((count_exact_iff _).2.2 hlt).2 (by decide +kernel)
  exact ⟨hlt, hp, ((count_exact_iff _).1 _).2 ⟨hp, by decide +kernel⟩⟩

theorem word_and_one_counts_one :
    count (ascii "18446744073709551617") = .ok 1 ∧
      digitsValue (ascii "18446744073709551617") = 2 ^ 64 + 1 := by
  decide +kernel

end PZero.Options
