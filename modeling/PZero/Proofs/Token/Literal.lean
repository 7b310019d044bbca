import Mathlib.Algebra.Group.Nat.Even
import PZero.Proofs.Surface.Relexing
import PZero.StringLiteral

namespace PZero.Token

variable {b : UInt8} {text body rest : Bytes}

def backslashes (text : Bytes) : Nat := (text.reverse.takeWhile (· == 92)).length

def Unescaped (before : Bytes) : Prop := Even (backslashes before)

theorem backslashes_cons (b : UInt8) (text : Bytes) : backslashes (b :: text) =
    if backslashes text = text.length then text.length + if b = 92 then 1 else 0
    else backslashes text := by
  rw [backslashes, List.reverse_cons, List.takeWhile_append, List.length_reverse, ← backslashes]
  by_cases hall : backslashes text = text.length
  · rw [if_pos hall, if_pos hall]
    by_cases hb : b = 92 <;> simp [hb]
  · rw [if_neg hall, if_neg hall]
    rfl

@[simp] theorem unescaped_nil : Unescaped [] := ⟨0, rfl⟩

@[simp] theorem not_unescaped_backslash : ¬Unescaped [92] := by
  simp [Unescaped, backslashes]

@[simp] theorem unescaped_escaped : Unescaped (92 :: b :: text) ↔ Unescaped text := by
  simp only [Unescaped, backslashes_cons, List.length_cons]
  by_cases hall : backslashes text = text.length
  · by_cases hb : b = 92
    · simp [hall, hb, Nat.even_add_one]
    · simp [hall, hb]
  · have hlen : backslashes text ≤ text.length := by
      have hle := (List.takeWhile_prefix (· == 92) : _ <+: text.reverse).length_le
      rwa [List.length_reverse] at hle
    simp only [hall, if_false]
    rw [if_neg (by omega)]

theorem unescaped_byte (hb : b ≠ 92) : Unescaped (b :: text) ↔ Unescaped text := by
  simp only [Unescaped, backslashes_cons, hb, if_false, Nat.add_zero]
  split
  · rename_i hall
    rw [hall]
  · rfl

/-- A byte of a text that is not escaped has, with what follows it, a property. -/
def Bare (p : UInt8 → Bytes → Prop) (text : Bytes) : Prop :=
  ∃ before b after, text = before ++ b :: after ∧ Unescaped before ∧ p b after

section Bare

variable {p : UInt8 → Bytes → Prop}

@[simp] theorem not_bare_nil : ¬Bare p [] := by
  rintro ⟨before, b, after, h, -⟩
  cases before <;> cases h

theorem bare_byte (hb : b ≠ 92) : Bare p (b :: text) ↔ p b text ∨ Bare p text := by
  constructor
  · rintro ⟨before, c, after, h, hu, hp⟩
    cases before with
    | nil =>
      cases h
      exact .inl hp
    | cons _ before =>
      cases h
      exact .inr ⟨before, c, after, rfl, (unescaped_byte hb).1 hu, hp⟩
  · rintro (hp | ⟨before, c, after, rfl, hu, hp⟩)
    · exact ⟨[], b, text, rfl, unescaped_nil, hp⟩
    · exact ⟨b :: before, c, after, rfl, (unescaped_byte hb).2 hu, hp⟩

theorem bare_escaped : Bare p (92 :: b :: text) ↔ p 92 (b :: text) ∨ Bare p text := by
  constructor
  · rintro ⟨before, c, after, h, hu, hp⟩
    match before with
    | [] =>
      cases h
      exact .inl hp
    | [_] =>
      cases h
      exact absurd hu not_unescaped_backslash
    | _ :: _ :: before =>
      cases h
      exact .inr ⟨before, c, after, rfl, unescaped_escaped.1 hu, hp⟩
  · rintro (hp | ⟨before, c, after, rfl, hu, hp⟩)
    · exact ⟨[], 92, b :: text, rfl, unescaped_nil, hp⟩
    · exact ⟨92 :: b :: before, c, after, rfl, unescaped_escaped.2 hu, hp⟩

end Bare

def Ends (b : UInt8) (_ : Bytes) : Prop := b = 34 ∨ b = 10

/-- A byte behind a text is the first at which a literal can end. -/
def Interior (body : Bytes) : Prop := Unescaped body ∧ ¬Bare Ends body

theorem exists_interior (h : Bare Ends text) :
    ∃ body b after, text = body ++ b :: after ∧ Interior body ∧ Ends b after := by
  obtain ⟨before, b, after, rfl, hu, he⟩ := h
  induction hn : before.length using Nat.strong_induction_on generalizing before b after with
  | _ n ih =>
    by_cases hb : Bare Ends before
    · obtain ⟨before', c, after', rfl, hu', he'⟩ := hb
      have hlt : before'.length < n := by
        rw [← hn, List.length_append, List.length_cons]
        omega
      obtain ⟨body, d, tail, h, hi, hd⟩ := ih _ hlt before' c (after' ++ b :: after) hu' he' rfl
      exact ⟨body, d, tail, by rw [← h, List.append_assoc, List.cons_append], hi, hd⟩
    · exact ⟨before, b, after, rfl, ⟨hu, hb⟩, he⟩

theorem stringWidth_interior (h : Interior body) (rest : Bytes) :
    stringWidth (body ++ rest) = ((stringWidth rest).1, body.length + (stringWidth rest).2) := by
  obtain ⟨hu, hn⟩ := h
  induction body using stringWidth.induct with
  | case1 => simp
  | case2 body => exact absurd ((bare_byte (by decide)).2 (.inl (.inr rfl))) hn
  | case3 body => exact absurd ((bare_byte (by decide)).2 (.inl (.inl rfl))) hn
  | case4 => exact absurd hu not_unescaped_backslash
  | case5 b body _ _ _ _ _ ih =>
    rw [bare_escaped, not_or] at hn
    rw [List.cons_append, List.cons_append, stringWidth_escaped, ih (unescaped_escaped.1 hu) hn.2]
    simp only [List.length_cons, Prod.mk.injEq, true_and]
    omega
  | case6 b body hnl hq hs _ _ _ ih =>
    rw [bare_byte hs, not_or] at hn
    rw [List.cons_append, stringWidth_byte hnl hq hs, ih ((unescaped_byte hs).1 hu) hn.2]
    simp only [List.length_cons, Prod.mk.injEq, true_and]
    omega

theorem stringWidth_endless (h : ¬Bare Ends text) : stringWidth text = (false, text.length) := by
  induction text using stringWidth.induct with
  | case1 => rfl
  | case2 text => exact absurd ((bare_byte (by decide)).2 (.inl (.inr rfl))) h
  | case3 text => exact absurd ((bare_byte (by decide)).2 (.inl (.inl rfl))) h
  | case4 => rfl
  | case5 b text _ _ _ _ _ ih =>
    rw [bare_escaped, not_or] at h
    rw [stringWidth_escaped, ih h.2]
    rfl
  | case6 b text hn hq hs _ _ _ ih =>
    rw [bare_byte hs, not_or] at h
    rw [stringWidth_byte hn hq hs, ih h.2]
    rfl

end PZero.Token

namespace PZero.StringLiteral

open Token

/-- A backslash before a byte with which it stands for nothing. -/
def BadEscape (b : UInt8) (after : Bytes) : Prop :=
  b = 92 ∧ ∃ e rest, after = e :: rest ∧ e ∉ ascii "nrt0\"\\"

theorem escaped?_eq_none_iff {e : UInt8} : escaped? e = none ↔ e ∉ ascii "nrt0\"\\" := by
  simp only [show ascii "nrt0\"\\" = [110, 114, 116, 48, 34, 92] from rfl, List.mem_cons,
    List.not_mem_nil, or_false, not_or]
  unfold escaped?
  grind

theorem unescape_tail {tail : Bytes} (h : IsStringTail tail) :
    (∃ s, unescape tail.dropLast = .ok s) ∧ ¬Bare BadEscape tail ∨
      (∃ e, unescape tail.dropLast = .error (.unknownEscape e)) ∧ Bare BadEscape tail := by
  induction h with
  | close =>
    refine .inl ⟨⟨[], rfl⟩, ?_⟩
    rw [bare_byte (by decide)]
    rintro (⟨h, -⟩ | h)
    · cases h
    · exact not_bare_nil h
  | @escaped b rest hr ih =>
    have hne : rest ≠ [] := by cases hr <;> simp
    have hdrop : (92 :: b :: rest).dropLast = 92 :: b :: rest.dropLast := by
      rw [List.dropLast_cons_of_ne_nil (by simp), List.dropLast_cons_of_ne_nil hne]
    have hbad : BadEscape 92 (b :: rest) ↔ escaped? b = none := by
      simp [BadEscape, escaped?_eq_none_iff]
    rw [hdrop, bare_escaped, hbad, unescape]
    cases hb : escaped? b with
    | none => exact .inr ⟨⟨b, rfl⟩, .inl rfl⟩
    | some c =>
      rcases ih with ⟨⟨s, hs⟩, hn⟩ | ⟨⟨e, he⟩, hbare⟩
      · exact .inl ⟨⟨c :: s, by rw [hs]; rfl⟩, by simpa using hn⟩
      · exact .inr ⟨⟨e, by rw [he]; rfl⟩, .inr hbare⟩
  | @byte b rest hn hq hs hr ih =>
    have hne : rest ≠ [] := by cases hr <;> simp
    have hbad : ¬BadEscape b rest := fun h ↦ hs h.1
    rw [List.dropLast_cons_of_ne_nil hne, bare_byte hs, or_iff_right hbad]
    have hun : unescape (b :: rest.dropLast) = (unescape rest.dropLast).map (b :: ·) := by
      rw [unescape.eq_def]
      simp [hn, hs]
    rw [hun]
    rcases ih with ⟨⟨s, hs⟩, hn⟩ | ⟨⟨e, he⟩, hbare⟩
    · exact .inl ⟨⟨b :: s, by rw [hs]; rfl⟩, hn⟩
    · exact .inr ⟨⟨e, by rw [he]; rfl⟩, hbare⟩

theorem decode_of_tail {tail : Bytes} (h : IsStringTail tail) :
    decode (34 :: tail) = unescape tail.dropLast := by
  have hlast : tail.getLast? = some 34 := by
    induction h with
    | close => rfl
    | escaped b _ ih => simp [List.getLast?_cons, ih]
    | byte _ _ _ _ ih => simp [List.getLast?_cons, ih]
  have hne : tail ≠ [] := by
    rintro rfl
    cases hlast
  have hpos := List.length_pos_iff.2 hne
  rw [decode, if_pos]
  · rfl
  · simp [List.getLast?_cons, hlast]
    omega

/-- A literal fails to stand for a text only by an escape that stands for nothing. -/
theorem decode_string {literal : Bytes} (h : IsString literal) :
    (∃ s, decode literal = .ok s) ∧ ¬Bare BadEscape literal ∨
      (∃ e, decode literal = .error (.unknownEscape e)) ∧ Bare BadEscape literal := by
  obtain ⟨tail, rfl, ht⟩ := h
  have hquote : ¬BadEscape 34 tail := fun h ↦ absurd h.1 (by decide)
  rw [decode_of_tail ht, bare_byte (by decide), or_iff_right hquote]
  exact unescape_tail ht

def escapeByte (b : UInt8) : Bytes :=
  if b = 92 then ascii "\\\\"
  else if b = 34 then ascii "\\\""
  else if b = 10 then ascii "\\n"
  else if b = 0 then ascii "\\0"
  else [b]

def escape (s : Bytes) : Bytes := s.flatMap escapeByte

def quote (s : Bytes) : Bytes := 34 :: (escape s ++ [34])

theorem escapeByte_cases (b : UInt8) :
    (∃ e, escapeByte b = [92, e] ∧ escaped? e = some b) ∨
      escapeByte b = [b] ∧ b ≠ 10 ∧ b ≠ 34 ∧ b ≠ 92 := by
  unfold escapeByte
  split
  · exact .inl ⟨92, rfl, by subst b; rfl⟩
  split
  · exact .inl ⟨34, rfl, by subst b; rfl⟩
  split
  · exact .inl ⟨110, rfl, by subst b; rfl⟩
  split
  · exact .inl ⟨48, rfl, by subst b; rfl⟩
  · exact .inr ⟨rfl, ‹_›, ‹_›, ‹_›⟩

theorem isStringTail_escape (s : Bytes) : IsStringTail (escape s ++ [34]) := by
  induction s with
  | nil => exact .close
  | cons b s ih =>
    rw [escape, List.flatMap_cons, List.append_assoc]
    rcases escapeByte_cases b with ⟨e, he, -⟩ | ⟨he, hn, hq, hs⟩ <;> rw [he]
    · exact .escaped e ih
    · exact .byte hn hq hs ih

theorem unescape_escape (s : Bytes) : unescape (escape s) = .ok s := by
  induction s with
  | nil => rfl
  | cons b s ih =>
    rw [escape, List.flatMap_cons, ← escape]
    rcases escapeByte_cases b with ⟨e, he, hb⟩ | ⟨he, hn, hq, hs⟩ <;> rw [he]
    · rw [List.cons_append, List.singleton_append, unescape]
      simp only [hb, ih]
      rfl
    · rw [List.singleton_append, unescape.eq_def]
      simp only [hn, hs, if_false, ih]
      rfl

theorem isString_quote (s : Bytes) : IsString (quote s) := ⟨_, rfl, isStringTail_escape s⟩

theorem decode_quote (s : Bytes) : decode (quote s) = .ok s := by
  rw [quote, decode_of_tail (isStringTail_escape s), List.dropLast_concat, unescape_escape]

end PZero.StringLiteral
