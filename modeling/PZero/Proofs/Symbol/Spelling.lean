import PZero.Proofs.IR.Names
import PZero.Symbol

namespace PZero.Bytes

theorem ofInt_inj {m n : Int} (h : ofInt m = ofInt n) : m = n := by
  have hminus : ∀ {k : Nat} {rest : Bytes}, ofNat k ≠ 45 :: rest := by
    intro k rest he
    have hd : isDigit 45 = true := isDigit_of_mem_ofNat (he ▸ List.mem_cons_self)
    cases hd
  cases m with
  | ofNat m =>
    cases n with
    | ofNat n => exact congrArg Int.ofNat (ofNat_inj h)
    | negSucc n => exact absurd h hminus
  | negSucc m =>
    cases n with
    | ofNat n => exact absurd h.symm hminus
    | negSucc n => exact congrArg Int.negSucc (Nat.succ.inj (ofNat_inj (List.cons.inj h).2))

/-- Whether a mark stands only between quotes, and all quotes are closed. Reading starts inside or
outside of quotes. -/
def guarded (mark : UInt8) : (inside : Bool) → Bytes → Bool
  | inside, [] => !inside
  | true, b :: rest => guarded mark (b ≠ 34) rest
  | false, b :: rest => b ≠ mark && guarded mark (b = 34) rest

variable {mark : UInt8}

theorem guarded_append {front : Bytes} {inside : Bool} (h : guarded mark inside front = true)
    (back : Bytes) : guarded mark inside (front ++ back) = guarded mark false back := by
  induction front generalizing inside with
  | nil =>
    cases inside with
    | false => rfl
    | true => cases h
  | cons b front ih =>
    cases inside with
    | true => exact ih h
    | false =>
      rw [guarded, Bool.and_eq_true] at h
      rw [List.cons_append, guarded, h.1, Bool.true_and]
      exact ih h.2

/-- Two texts cut at their first mark outside of quotes have the same parts. -/
theorem eq_of_append_mark {front front' back back' : Bytes} {inside : Bool}
    (hf : guarded mark inside front = true) (hf' : guarded mark inside front' = true)
    (h : front ++ mark :: back = front' ++ mark :: back') : front = front' ∧ back = back' := by
  induction front generalizing front' inside with
  | nil =>
    obtain rfl : inside = false := by simpa [guarded] using hf
    cases front' with
    | nil => exact ⟨rfl, (List.cons.inj h).2⟩
    | cons b front' =>
      have hb : mark = b := (List.cons.inj h).1
      simp [guarded, hb] at hf'
  | cons b front ih =>
    cases front' with
    | nil =>
      obtain rfl : inside = false := by simpa [guarded] using hf'
      have hb : b = mark := (List.cons.inj h).1
      simp [guarded, hb] at hf
    | cons b' front' =>
      obtain ⟨rfl, ht⟩ := List.cons.inj h
      have hnext : ∃ inside', guarded mark inside' front = true ∧
          guarded mark inside' front' = true := by
        cases inside with
        | true => exact ⟨_, hf, hf'⟩
        | false =>
          rw [guarded, Bool.and_eq_true] at hf hf'
          exact ⟨_, hf.2, hf'.2⟩
      obtain ⟨inside', hg, hg'⟩ := hnext
      obtain ⟨rfl, hback⟩ := ih hg hg' ht
      exact ⟨rfl, hback⟩

theorem guarded_of_forall {text : Bytes} (h : ∀ b ∈ text, b ≠ mark ∧ b ≠ 34) :
    guarded mark false text = true := by
  induction text with
  | nil => rfl
  | cons b text ih =>
    obtain ⟨⟨hm, hq⟩, hrest⟩ := List.forall_mem_cons.1 h
    simp [guarded, hm, hq, ih hrest]

theorem guarded_quoted {text : Bytes} (h : 34 ∉ text) :
    guarded mark true (text ++ [34]) = true := by
  induction text with
  | nil => rfl
  | cons b text ih =>
    obtain ⟨hb, hrest⟩ := not_or.1 fun hmem ↦ h (List.mem_cons.2 hmem)
    simpa [guarded, Ne.symm hb] using ih hrest

theorem guarded_ofInt (h : isDigit mark = false) (hm : mark ≠ 45) (n : Int) :
    guarded mark false (ofInt n) = true := by
  apply guarded_of_forall
  have hdigit : ∀ {k : Nat} {b : UInt8}, b ∈ ofNat k → b ≠ mark ∧ b ≠ 34 := by
    intro k b hb
    have hd := isDigit_of_mem_ofNat hb
    constructor
    · rintro rfl
      simp [h] at hd
    · rintro rfl
      cases hd
  cases n with
  | ofNat n => exact fun b ↦ hdigit
  | negSucc n => exact List.forall_mem_cons.2 ⟨⟨Ne.symm hm, by decide⟩, fun b ↦ hdigit⟩

end PZero.Bytes

namespace PZero.Symbol

open Bytes

def hexValue (digit : UInt8) : UInt8 := if digit ≤ 57 then digit - 48 else digit - 55

def unescape : Bytes → Bytes
  | 92 :: high :: low :: rest => (hexValue high * 16 + hexValue low) :: unescape rest
  | b :: rest => b :: unescape rest
  | [] => []

theorem hexValue_upperHex (b : UInt8) :
    hexValue (upperDigit (b.toNat / 16)) * 16 + hexValue (upperDigit (b.toNat % 16)) = b := by
  have h : ∀ n < 256, hexValue (upperDigit (n / 16)) * 16 + hexValue (upperDigit (n % 16))
      = UInt8.ofNat n := by decide +kernel
  rw [h b.toNat b.toNat_lt, UInt8.ofNat_toNat]

theorem unescape_escapeByte (b : UInt8) (rest : Bytes) :
    unescape (escapeByte b ++ rest) = b :: unescape rest := by
  unfold escapeByte
  split
  · rename_i h
    rw [List.singleton_append, unescape]
    intro high low tail hb
    exact absurd hb h.2.1
  · rw [List.cons_append, upperHex, List.cons_append, List.cons_append, List.nil_append, unescape,
      hexValue_upperHex]

theorem unescape_escape (text : Bytes) : unescape (escape text) = text := by
  induction text with
  | nil => rfl
  | cons b text ih => rw [escape, List.flatMap_cons, unescape_escapeByte, ← escape, ih]

theorem not_mem_escape {mark : UInt8} (hm : mark = 34 ∨ mark = 10) (text : Bytes) :
    mark ∉ escape text := by
  have hdigit : ∀ n < 16, upperDigit n ≠ 34 ∧ upperDigit n ≠ 10 := by decide +kernel
  have hne : ∀ n < 16, mark ≠ upperDigit n := by
    rintro n hn rfl
    exact hm.elim (hdigit n hn).1 (hdigit n hn).2
  intro h
  obtain ⟨b, -, hb⟩ := List.mem_flatMap.1 h
  have hlt := b.toNat_lt
  unfold escapeByte at hb
  split at hb
  · rename_i hp
    obtain rfl := List.mem_singleton.1 hb
    rcases hm with rfl | rfl
    · exact hp.1 rfl
    · exact absurd hp.2.2.1 (by decide)
  · simp only [upperHex, List.mem_cons, List.not_mem_nil, or_false] at hb
    rcases hb with rfl | hb | hb
    · exact absurd hm (by decide)
    · exact hne _ (by omega) hb
    · exact hne _ (by omega) hb

theorem quote_not_mem_escape (text : Bytes) : 34 ∉ escape text := not_mem_escape (.inl rfl) text

theorem plain_of_isPlain {name : Bytes} (h : isPlain name = true) :
    ∀ b ∈ name, (isPlainStart b || isDigit b) = true := by
  cases name with
  | nil => cases h
  | cons c rest =>
    rw [isPlain, Bool.or_eq_true, Bool.and_eq_true, List.all_eq_true, List.all_eq_true] at h
    rcases h with h | ⟨hc, hrest⟩
    · intro b hb
      rw [h b hb, Bool.or_true]
    · refine List.forall_mem_cons.2 ⟨?_, hrest⟩
      rw [hc, Bool.true_or]

theorem quote_not_mem_plain {name : Bytes} (h : isPlain name = true) : 34 ∉ name := by
  intro hq
  cases plain_of_isPlain h 34 hq

theorem guarded_spell {mark : UInt8} (hm : (isPlainStart mark || isDigit mark) = false)
    (hq : mark ≠ 34) (name : Bytes) : guarded mark false (spell name) = true := by
  unfold spell
  split
  · rename_i hp
    apply guarded_of_forall
    intro b hb
    constructor
    · rintro rfl
      rw [plain_of_isPlain hp b hb] at hm
      cases hm
    · rintro rfl
      exact quote_not_mem_plain hp hb
  · simpa [ascii, guarded, Ne.symm hq] using guarded_quoted (quote_not_mem_escape name)

theorem spell_inj {name name' : Bytes} (h : spell name = spell name') : name = name' := by
  have hquote : ∀ {plain rest : Bytes}, isPlain plain = true → plain ≠ ascii "\"" ++ rest := by
    intro plain rest hp he
    exact quote_not_mem_plain hp (he ▸ List.mem_cons_self)
  unfold spell at h
  split at h <;> split at h
  · exact h
  · exact absurd (h.trans (List.append_assoc _ _ _)) (hquote ‹_›)
  · exact absurd (h.symm.trans (List.append_assoc _ _ _)) (hquote ‹_›)
  · have he := congrArg unescape (List.append_cancel_left (List.append_cancel_right h))
    rwa [unescape_escape, unescape_escape] at he

end PZero.Symbol
