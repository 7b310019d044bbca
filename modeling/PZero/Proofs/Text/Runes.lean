import Mathlib.Data.List.Basic
import Mathlib.Tactic.Common
import PZero.Text.Utf8

namespace PZero.Utf8

theorem isContinuation_iff (b : UInt8) :
    isContinuation b = true ↔ 0x80 ≤ b.toNat ∧ b.toNat ≤ 0xBF := by
  simp only [isContinuation, Bool.and_eq_true, decide_eq_true_eq, UInt8.le_iff_toNat_le]
  rfl

theorem isSecond_iff (a b : UInt8) :
    isSecond a b = true ↔ (0x80 ≤ b.toNat ∧ b.toNat ≤ 0xBF) ∧ (a.toNat = 0xE0 → 0xA0 ≤ b.toNat) ∧
      (a.toNat = 0xED → b.toNat ≤ 0x9F) ∧ (a.toNat = 0xF0 → 0x90 ≤ b.toNat) ∧
      (a.toNat = 0xF4 → b.toNat ≤ 0x8F) := by
  unfold isSecond
  simp only [← UInt8.toNat_inj, UInt8.reduceToNat]
  split_ifs
  all_goals
    simp only [isContinuation_iff, Bool.and_eq_true, decide_eq_true_eq, UInt8.le_iff_toNat_le,
      UInt8.reduceToNat]
    omega

theorem ofNat_eq {n : Nat} {b : UInt8} (h : n = b.toNat) : UInt8.ofNat n = b := by
  rw [h, UInt8.ofNat_toNat]

theorem toNat_ofNat {n : Nat} (h : n < 256) : (UInt8.ofNat n).toNat = n :=
  UInt8.toNat_ofNat_of_lt' h

theorem encode_two {a b : UInt8} (ha : 0xC2 ≤ a.toNat ∧ a.toNat ≤ 0xDF)
    (hb : 0x80 ≤ b.toNat ∧ b.toNat ≤ 0xBF) :
    encode ((a.toNat - 0xC0) * 64 + (b.toNat - 0x80)) = [a, b] := by
  unfold encode
  rw [if_neg (by omega), if_pos (by omega), ofNat_eq (b := a) (by omega),
    ofNat_eq (b := b) (by omega)]

theorem encode_three {a b c : UInt8} (ha : 0xE0 ≤ a.toNat ∧ a.toNat ≤ 0xEF)
    (hb : 0x80 ≤ b.toNat ∧ b.toNat ≤ 0xBF) (hab : a.toNat = 0xE0 → 0xA0 ≤ b.toNat)
    (hc : 0x80 ≤ c.toNat ∧ c.toNat ≤ 0xBF) :
    encode (((a.toNat - 0xE0) * 64 + (b.toNat - 0x80)) * 64 + (c.toNat - 0x80)) = [a, b, c] := by
  unfold encode
  rw [if_neg (by omega), if_neg (by omega), if_pos (by omega), ofNat_eq (b := a) (by omega),
    ofNat_eq (b := b) (by omega), ofNat_eq (b := c) (by omega)]

theorem encode_four {a b c d : UInt8} (ha : 0xF0 ≤ a.toNat ∧ a.toNat ≤ 0xF4)
    (hb : 0x80 ≤ b.toNat ∧ b.toNat ≤ 0xBF) (hab : a.toNat = 0xF0 → 0x90 ≤ b.toNat)
    (hc : 0x80 ≤ c.toNat ∧ c.toNat ≤ 0xBF) (hd : 0x80 ≤ d.toNat ∧ d.toNat ≤ 0xBF) :
    encode ((((a.toNat - 0xF0) * 64 + (b.toNat - 0x80)) * 64 + (c.toNat - 0x80)) * 64
      + (d.toNat - 0x80)) = [a, b, c, d] := by
  unfold encode
  rw [if_neg (by omega), if_neg (by omega), if_neg (by omega), ofNat_eq (b := a) (by omega),
    ofNat_eq (b := b) (by omega), ofNat_eq (b := c) (by omega), ofNat_eq (b := d) (by omega)]

theorem encode_of_front? {text : Bytes} {c w : Nat} (h : front? text = some (c, w)) :
    c.isValidChar ∧ encode c <+: text ∧ (encode c).length = w := by
  cases text with
  | nil => cases h
  | cons a rest =>
    simp only [front?, Bool.and_eq_true, decide_eq_true_eq, UInt8.le_iff_toNat_le,
      UInt8.lt_iff_toNat_lt, UInt8.reduceToNat] at h
    split_ifs at h with h1 h2 h3 h4
    · obtain ⟨rfl, rfl⟩ := Prod.mk.inj (Option.some.inj h)
      have he : encode a.toNat = [a] := by rw [encode, if_pos h1, UInt8.ofNat_toNat]
      rw [he]
      exact ⟨.inl (by omega), List.prefix_append [a] rest, rfl⟩
    · split at h
      · rename_i b rest
        split_ifs at h with hs
        obtain ⟨hb, -⟩ := (isSecond_iff a b).1 hs
        obtain ⟨rfl, rfl⟩ := Prod.mk.inj (Option.some.inj h)
        rw [encode_two h2 hb]
        exact ⟨.inl (by omega), List.prefix_append [a, b] rest, rfl⟩
      · cases h
    · split at h
      · rename_i b c rest
        split_ifs at h with hs
        obtain ⟨hb, hab, had, -⟩ := (isSecond_iff a b).1 hs.1
        have hc := (isContinuation_iff c).1 hs.2
        obtain ⟨rfl, rfl⟩ := Prod.mk.inj (Option.some.inj h)
        rw [encode_three h3 hb hab hc]
        exact ⟨by simp only [Nat.isValidChar]; omega, List.prefix_append [a, b, c] rest, rfl⟩
      · cases h
    · split at h
      · rename_i b c d rest
        split_ifs at h with hs
        obtain ⟨hb, -, -, hab, had⟩ := (isSecond_iff a b).1 hs.1.1
        have hc := (isContinuation_iff c).1 hs.1.2
        have hd := (isContinuation_iff d).1 hs.2
        obtain ⟨rfl, rfl⟩ := Prod.mk.inj (Option.some.inj h)
        rw [encode_four h4 hb hab hc hd]
        exact ⟨.inr (by omega), List.prefix_append [a, b, c, d] rest, rfl⟩
      · cases h

theorem front?_encode {c : Nat} (hc : c.isValidChar) (rest : Bytes) :
    front? (encode c ++ rest) = some (c, (encode c).length) := by
  unfold Nat.isValidChar at hc
  unfold encode
  split_ifs with h1 h2 h3
  · simp only [List.singleton_append, front?, UInt8.lt_iff_toNat_lt, UInt8.reduceToNat]
    rw [toNat_ofNat (by omega), if_pos h1]
    rfl
  · simp only [List.cons_append, List.nil_append, front?, UInt8.lt_iff_toNat_lt,
      UInt8.le_iff_toNat_le, UInt8.reduceToNat, Bool.and_eq_true, decide_eq_true_eq, isSecond_iff]
    rw [toNat_ofNat (by omega), toNat_ofNat (by omega), if_neg (by omega), if_pos (by omega),
      if_pos (by omega)]
    simp only [List.length_cons, List.length_nil, Option.some.injEq, Prod.mk.injEq,
      and_true]
    omega
  · simp only [List.cons_append, List.nil_append, front?, UInt8.lt_iff_toNat_lt,
      UInt8.le_iff_toNat_le, UInt8.reduceToNat, Bool.and_eq_true, decide_eq_true_eq, isSecond_iff,
      isContinuation_iff]
    rw [toNat_ofNat (by omega), toNat_ofNat (by omega), toNat_ofNat (by omega), if_neg (by omega),
      if_neg (by omega), if_pos (by omega), if_pos (by omega)]
    simp only [List.length_cons, List.length_nil, Option.some.injEq, Prod.mk.injEq,
      and_true]
    omega
  · simp only [List.cons_append, List.nil_append, front?, UInt8.lt_iff_toNat_lt,
      UInt8.le_iff_toNat_le, UInt8.reduceToNat, Bool.and_eq_true, decide_eq_true_eq, isSecond_iff,
      isContinuation_iff]
    rw [toNat_ofNat (by omega), toNat_ofNat (by omega), toNat_ofNat (by omega),
      toNat_ofNat (by omega), if_neg (by omega), if_neg (by omega), if_neg (by omega),
      if_pos (by omega), if_pos (by omega)]
    simp only [List.length_cons, List.length_nil, Option.some.injEq, Prod.mk.injEq,
      and_true]
    omega

theorem width_encode {c : Nat} (hc : c.isValidChar) (rest : Bytes) :
    width (encode c ++ rest) = (encode c).length := by
  rw [width, front?_encode hc]

/-- A byte at which no encoding starts. -/
def IsStray (text : Bytes) : Prop := ∀ c : Nat, c.isValidChar → ¬ encode c <+: text

theorem front?_eq_none_iff (text : Bytes) : front? text = none ↔ IsStray text := by
  constructor
  · intro h c hc ⟨rest, he⟩
    rw [← he, front?_encode hc] at h
    cases h
  · intro h
    cases hf : front? text with
    | none => rfl
    | some found =>
      obtain ⟨hc, hp, -⟩ := encode_of_front? hf
      exact absurd hp (h _ hc)

/-- A text and the runes it consists of. -/
inductive Runes : Bytes → List Bytes → Prop
  | nil : Runes [] []
  | char {c : Nat} {rest : Bytes} {rs : List Bytes} (hc : c.isValidChar) (h : Runes rest rs) :
    Runes (encode c ++ rest) (encode c :: rs)
  | stray {b : UInt8} {rest : Bytes} {rs : List Bytes} (hb : IsStray (b :: rest))
    (h : Runes rest rs) : Runes (b :: rest) ([b] :: rs)

theorem encode_ne_nil (c : Nat) : encode c ≠ [] := by
  unfold encode
  split_ifs <;> exact List.cons_ne_nil _ _

theorem Runes.exists_cons {text : Bytes} {rs : List Bytes} (h : Runes text rs) (hne : text ≠ []) :
    ∃ rs', rs = text.take (width text) :: rs' ∧ Runes (text.drop (width text)) rs' ∧
      width text ≤ text.length := by
  cases h with
  | nil => exact absurd rfl hne
  | char hc h =>
    rw [width_encode hc, List.take_left, List.drop_left, List.length_append]
    exact ⟨_, rfl, h, Nat.le_add_right _ _⟩
  | stray hb h =>
    rw [width, (front?_eq_none_iff _).2 hb]
    exact ⟨_, rfl, h, Nat.le_add_left 1 _⟩

theorem Runes.eq_nil {rs : List Bytes} (h : Runes [] rs) : rs = [] := by
  generalize he : ([] : Bytes) = text at h
  cases h with
  | nil => rfl
  | char hc h => exact absurd (List.append_eq_nil_iff.1 he.symm).1 (encode_ne_nil _)
  | stray hb h => cases he

theorem exists_runes (text : Bytes) : ∃ rs, Runes text rs := by
  induction hn : text.length using Nat.strongRecOn generalizing text with
  | _ n ih =>
    cases text with
    | nil => exact ⟨[], .nil⟩
    | cons b rest =>
      by_cases hs : IsStray (b :: rest)
      · obtain ⟨rs, h⟩ := ih rest.length (by rw [← hn]; exact Nat.lt_succ_self _) rest rfl
        exact ⟨_, .stray hs h⟩
      · unfold IsStray at hs
        push Not at hs
        obtain ⟨c, hc, after, he⟩ := hs
        have hpos : 0 < (encode c).length := List.length_pos_iff.2 (encode_ne_nil c)
        have hlen : after.length < n := by
          rw [← hn, ← he, List.length_append]
          omega
        obtain ⟨rs, h⟩ := ih after.length hlen after rfl
        rw [← he]
        exact ⟨_, .char hc h⟩

theorem Runes.unique {text : Bytes} {rs rs' : List Bytes} (h : Runes text rs)
    (h' : Runes text rs') : rs = rs' := by
  induction rs generalizing text rs' with
  | nil =>
    cases h
    exact h'.eq_nil.symm
  | cons r rs ih =>
    have hne : text ≠ [] := by
      rintro rfl
      cases h.eq_nil
    obtain ⟨ts, he, ht, -⟩ := h.exists_cons hne
    obtain ⟨ts', he', ht', -⟩ := h'.exists_cons hne
    obtain ⟨rfl, rfl⟩ := List.cons.inj he
    rw [he', ih ht ht']

def ends (start : Nat) : List Bytes → List Nat
  | [] => []
  | rune :: rs => (start + rune.length) :: ends (start + rune.length) rs

theorem le_of_mem_ends {start e : Nat} {rs : List Bytes} (h : e ∈ ends start rs) : start ≤ e := by
  induction rs generalizing start with
  | nil => cases h
  | cons r rs ih =>
    obtain rfl | h := List.mem_cons.1 h
    · exact Nat.le_add_right _ _
    · exact Nat.le_trans (Nat.le_add_right _ _) (ih h)

theorem wholeWithin_pending (bound pending : Nat) (text : Bytes) :
    wholeWithin bound pending text = wholeWithin bound 0 (text.drop pending) := by
  induction text generalizing pending with
  | nil =>
    rw [List.drop_nil]
    rfl
  | cons b rest ih =>
    cases pending with
    | zero => rfl
    | succ p => exact ih p

theorem wholeWithin_eq {text : Bytes} {rs : List Bytes} (h : Runes text rs) (start bound : Nat) :
    wholeWithin bound 0 text = (ends start rs).countP (· ≤ start + bound) := by
  induction rs generalizing text start bound with
  | nil =>
    cases h
    rfl
  | cons r rs ih =>
    cases text with
    | nil => cases h.eq_nil
    | cons b rest =>
      obtain ⟨ts, he, ht, hle⟩ := h.exists_cons (List.cons_ne_nil b rest)
      obtain ⟨rfl, rfl⟩ := List.cons.inj he
      have hpos := one_le_width (b :: rest)
      have hdrop : rest.drop (width (b :: rest) - 1) = (b :: rest).drop (width (b :: rest)) := by
        obtain ⟨w, hw⟩ := Nat.exists_eq_add_of_le' hpos
        rw [hw, List.drop_succ_cons, Nat.add_sub_cancel]
      rw [ends, List.length_take, Nat.min_eq_left hle]
      by_cases hlt : bound < width (b :: rest)
      · have hnone : (ends (start + width (b :: rest)) rs).countP (· ≤ start + bound) = 0 := by
          rw [List.countP_eq_zero]
          intro e hm
          have := le_of_mem_ends hm
          rw [decide_eq_true_eq]
          omega
        rw [List.countP_cons_of_neg (by rw [decide_eq_true_eq]; omega), hnone]
        simp only [wholeWithin, hlt, if_true]
      · have hrest := ih ht (start + width (b :: rest)) (bound - width (b :: rest))
        have hbound : start + width (b :: rest) + (bound - width (b :: rest)) = start + bound := by
          omega
        rw [hbound] at hrest
        rw [List.countP_cons_of_pos (by rw [decide_eq_true_eq]; omega), ← hrest, ← hdrop,
          ← wholeWithin_pending]
        simp only [wholeWithin, hlt, if_false]
        exact Nat.add_comm _ _

end PZero.Utf8
