import PZero.Proofs.Token.Classes
import PZero.Proofs.Token.Literal
import PZero.Proofs.Token.Tiling

namespace PZero.Token

open Surface (IsDigits IsName IsFraction IsExponent IsFloat)

section Longest

variable {word text : Bytes}

/-- A word is the longest of the prefixes of a text that are in a class. -/
def Longest (class_ : Language UInt8) (word text : Bytes) : Prop :=
  word ∈ class_ ∧ word <+: text ∧ ∀ other ∈ class_, other <+: text → other.length ≤ word.length

theorem longest_name {b : UInt8} {rest : Bytes} (hb : isWordStart b) :
    Longest nameClass.matches' ((b :: rest).takeWhile isWordByte) (b :: rest) := by
  refine ⟨mem_nameClass.2 ⟨⟨b, rest.takeWhile isWordByte, ?_, hb⟩, ?_⟩,
    List.takeWhile_prefix _, ?_⟩
  · rw [List.takeWhile_cons_of_pos (by simp [isWordByte, hb])]
  · exact fun c hc ↦ List.mem_takeWhile_imp hc
  · rintro other ho ⟨tail, he⟩
    have hall := (mem_nameClass.1 ho).2
    rw [← he, List.takeWhile_append_of_pos hall, List.length_append]
    exact Nat.le_add_right _ _

theorem digitsWidth_add {digits : Bytes} (h : ∀ b ∈ digits, Bytes.isDigit b) (tail : Bytes) :
    digitsWidth (digits ++ tail) = digits.length + digitsWidth tail := by
  rw [digitsWidth, List.takeWhile_append_of_pos h, List.length_append, digitsWidth]

theorem exponent_le {exponent : Bytes} (h : IsExponent exponent) (tail : Bytes) :
    exponent.length ≤ exponentWidth (exponent ++ tail) := by
  rcases h with rfl | ⟨mark, sign, digits, rfl, hm, hs, hd⟩
  · exact Nat.zero_le _
  · have hmark : (mark = 101 || mark = 69) = true := by simpa using hm
    have hpos := List.length_pos_iff.2 hd.1
    simp only [List.cons_append, List.append_assoc, exponentWidth, hmark, if_true,
      signWidth_append hs hd, List.drop_left, digitsWidth_add hd.2]
    rw [if_neg (by omega), List.length_cons, List.length_append]
    omega

theorem width_exponent {exponent : Bytes} (h : IsExponent exponent) (hne : exponent ≠ [])
    (tail : Bytes) : digitsWidth (exponent ++ tail) = 0 ∧ fractionWidth (exponent ++ tail) = 0 := by
  rcases h with rfl | ⟨mark, sign, digits, rfl, hm, -⟩
  · exact absurd rfl hne
  · simp only [List.mem_cons, List.not_mem_nil, or_false] at hm
    rcases hm with rfl | rfl <;> exact ⟨rfl, rfl⟩

theorem fraction_le {fraction exponent : Bytes} (hf : IsFraction fraction)
    (he : IsExponent exponent) (tail : Bytes) :
    let text := fraction ++ (exponent ++ tail)
    fraction.length + exponent.length ≤
      fractionWidth text + exponentWidth (text.drop (fractionWidth text)) := by
  have hexp := exponent_le he tail
  rcases hf with rfl | ⟨digits, rfl, hd⟩
  · by_cases hne : exponent = []
    · simp [hne]
    · simpa [(width_exponent he hne tail).2] using hexp
  · have hpos := List.length_pos_iff.2 hd.1
    have hw : fractionWidth (46 :: digits ++ (exponent ++ tail)) =
        1 + (digits.length + digitsWidth (exponent ++ tail)) := by
      rw [List.cons_append, fractionWidth, digitsWidth_add hd.2, if_neg (by omega)]
    by_cases hne : exponent = []
    · subst hne
      simp only [hw, List.length_cons, List.length_nil]
      omega
    · rw [(width_exponent he hne tail).1, Nat.add_zero, Nat.add_comm] at hw
      simp only [hw]
      rw [← List.length_cons, List.drop_left]
      omega

theorem number_le {number : Bytes} (h : IsFloat number) (tail : Bytes) :
    let text := number ++ tail
    let whole := digitsWidth text
    let fraction := fractionWidth (text.drop whole)
    number.length ≤ whole + fraction + exponentWidth (text.drop (whole + fraction)) := by
  obtain ⟨whole, fraction, exponent, rfl, hw, hf, he⟩ := h
  have hbehind := fraction_le hf he tail
  have hwhole : digitsWidth (whole ++ (fraction ++ exponent) ++ tail) =
      whole.length + digitsWidth (fraction ++ (exponent ++ tail)) := by
    rw [List.append_assoc, List.append_assoc, digitsWidth_add hw.2]
  by_cases hzero : digitsWidth (fraction ++ (exponent ++ tail)) = 0
  · rw [hzero, Nat.add_zero] at hwhole
    simp only [hwhole]
    rw [← List.drop_drop, List.append_assoc, List.append_assoc, List.drop_left]
    simp only [List.length_append]
    omega
  · -- a digit behind the digits leaves no room for a fraction or an exponent
    have hnil : fraction = [] ∧ exponent = [] := by
      rcases hf with rfl | ⟨digits, rfl, -⟩
      · exact ⟨rfl, by_contra fun hne ↦ hzero (width_exponent he hne tail).1⟩
      · exact absurd rfl hzero
    obtain ⟨rfl, rfl⟩ := hnil
    simp only [hwhole, List.length_append, List.length_nil]
    omega

def spellings : Language UInt8 := {spelling | spelling ∈ symbols.map Prod.fst}

/-- The symbol that is found first is the longest, for none comes before a longer one. -/
theorem longest_symbol {x : Bytes × Kind}
    (h : symbols.find? (fun (spelling, _) ↦ text.startsWith spelling) = some x) :
    Longest spellings x.1 text := by
  have hsorted : symbols.Pairwise fun x y ↦ y.1.length ≤ x.1.length := by decide
  obtain ⟨hx, before, after, hsplit, hbefore⟩ := List.find?_eq_some_iff_append.1 h
  refine ⟨List.mem_map_of_mem (List.mem_of_find?_eq_some h), List.isPrefixOf_iff_prefix.1 hx, ?_⟩
  intro other ho hp
  obtain ⟨y, hy, rfl⟩ := List.mem_map.1 ho
  rw [hsplit, List.pairwise_append, List.pairwise_cons] at hsorted
  rw [hsplit, List.mem_append, List.mem_cons] at hy
  rcases hy with hy | rfl | hy
  · have hnot := hbefore y hy
    rw [Bool.not_eq_true', ← Bool.not_eq_true] at hnot
    exact absurd (List.isPrefixOf_iff_prefix.2 hp) hnot
  · exact Nat.le_refl _
  · exact hsorted.2.1.1 y hy

end Longest

section Munch

def wordKinds : List Kind := .ident :: keywords.map Prod.snd

def numberKinds : List Kind := [.int, .float]

def symbolKinds : List Kind := symbols.map Prod.snd

/-- How a token is cut off the text at whose front it stands: it is the longest word of its class,
and a string literal ends at the first quote or newline that is not escaped. -/
structure Munch (text : Bytes) (kind : Kind) (lexeme : Bytes) (width : Nat) : Prop where
  word : kind ∈ wordKinds → Longest nameClass.matches' lexeme text
  reserved : kind ∈ wordKinds → if lexeme ∈ keywords.map Prod.fst then (lexeme, kind) ∈ keywords
    else kind = .ident
  number : kind ∈ numberKinds → Longest numberClass.matches' lexeme text ∧
    (kind = .float ↔ lexeme ∈ floatClass.matches')
  symbol : kind ∈ symbolKinds → Longest spellings lexeme text ∧ (lexeme, kind) ∈ symbols
  string : kind = .string ↔ ∃ body after, text = 34 :: (body ++ 34 :: after) ∧ Interior body
  quoted : ∀ body after, text = 34 :: (body ++ 34 :: after) → Interior body →
    lexeme = 34 :: (body ++ [34])
  cut : ∀ body after, text = 34 :: (body ++ 10 :: after) → Interior body →
    kind = .bad ∧ lexeme = 34 :: (body ++ [10])
  endless : ∀ inside, text = 34 :: inside → ¬Bare Ends inside → kind = .bad ∧ lexeme = text
  covered : kind ≠ .bad ∨ text.head? = some 34 → width = lexeme.length

variable {b : UInt8} {rest text lexeme : Bytes} {kind : Kind} {width : Nat}

theorem Munch.unquoted (hq : b ≠ 34) (hk : kind ≠ .string)
    (word : kind ∈ wordKinds → Longest nameClass.matches' lexeme (b :: rest))
    (reserved : kind ∈ wordKinds → if lexeme ∈ keywords.map Prod.fst then (lexeme, kind) ∈ keywords
      else kind = .ident)
    (number : kind ∈ numberKinds → Longest numberClass.matches' lexeme (b :: rest) ∧
      (kind = .float ↔ lexeme ∈ floatClass.matches'))
    (symbol : kind ∈ symbolKinds → Longest spellings lexeme (b :: rest) ∧ (lexeme, kind) ∈ symbols)
    (covered : kind ≠ .bad → width = lexeme.length) :
    Munch (b :: rest) kind lexeme width := by
  have hno : ∀ {inside : Bytes}, b :: rest ≠ 34 :: inside := fun h ↦ hq (List.cons.inj h).1
  refine ⟨word, reserved, number, symbol, ⟨fun h ↦ absurd h hk, ?_⟩, ?_, ?_, ?_, ?_⟩
  · rintro ⟨body, after, h, -⟩
    exact absurd h hno
  · exact fun body after h ↦ absurd h hno
  · exact fun body after h ↦ absurd h hno
  · exact fun inside h ↦ absurd h hno
  · rintro (h | h)
    · exact covered h
    · exact absurd (Option.some_inj.1 h) hq

theorem wordKind_cases (word : Bytes) :
    if word ∈ keywords.map Prod.fst then (word, wordKind word) ∈ keywords
    else wordKind word = .ident := by
  unfold wordKind
  cases hl : keywords.lookup word with
  | none =>
    rw [if_neg]
    · rfl
    · intro hm
      obtain ⟨⟨text, kind⟩, hk, rfl⟩ := List.mem_map.1 hm
      simpa using List.lookup_eq_none_iff.1 hl _ hk
  | some kind =>
    obtain ⟨before, after, he, -⟩ := List.lookup_eq_some_iff.1 hl
    have hm : (word, kind) ∈ keywords := by simp [he]
    rw [if_pos (List.mem_map_of_mem hm)]
    exact hm

theorem wordKind_mem (word : Bytes) : wordKind word ∈ wordKinds := by
  have h := wordKind_cases word
  split at h
  · exact List.mem_cons_of_mem _ (List.mem_map_of_mem h)
  · rw [h]
    exact List.mem_cons_self

theorem classes_disjoint : (∀ kind ∈ wordKinds, kind ∉ numberKinds ∧ kind ∉ symbolKinds) ∧
    (∀ kind ∈ numberKinds, kind ∉ symbolKinds) ∧
    ∀ kind ∈ wordKinds ++ (numberKinds ++ symbolKinds), kind ≠ .string ∧ kind ≠ .bad := by decide

theorem munch_word (hb : isWordStart b) :
    let word := (b :: rest).takeWhile isWordByte
    Munch (b :: rest) (wordKind word) word word.length := by
  intro word
  have hk := wordKind_mem word
  obtain ⟨hn, hs⟩ := classes_disjoint.1 _ hk
  have hne := classes_disjoint.2.2 _ (List.mem_append_left _ hk)
  refine .unquoted ?_ hne.1 (fun _ ↦ longest_name hb) (fun _ ↦ wordKind_cases word)
    (fun h ↦ absurd h hn) (fun h ↦ absurd h hs) (fun _ ↦ rfl)
  rintro rfl
  exact absurd hb (by decide)

theorem frontNumber_kind (h : frontNumber text = .token kind lexeme width) :
    kind ∈ numberKinds := by
  simp only [frontNumber, Front.taken, Front.token.injEq] at h
  rw [← h.1]
  split <;> decide

theorem munch_number (hb : Bytes.isDigit b)
    (h : frontNumber (b :: rest) = .token kind lexeme width) :
    Munch (b :: rest) kind lexeme width := by
  obtain ⟨_, _, _, hf, -, hclass⟩ := @frontNumber_fine b rest hb
  obtain ⟨-, hle, hl⟩ : Front.Covers (b :: rest) (.token kind lexeme width) :=
    h ▸ frontNumber_covers hb
  cases h.symm.trans hf
  have hwidth : ∀ other, IsFloat other → other <+: b :: rest → other.length ≤ width := by
    rintro other ho ⟨tail, he⟩
    simp only [frontNumber, Front.taken, Front.token.injEq] at h
    rw [← h.2.2, ← he]
    exact number_le ho tail
  have hk := frontNumber_kind h
  have hne := classes_disjoint.2.2 _ (List.mem_append_right _ (List.mem_append_left _ hk))
  rw [lexemeOf_of_ne hne.2] at hl
  have hlen : width = lexeme.length := by rw [hl, List.length_take_of_le hle]
  have hnumber : IsFloat lexeme ∧ (kind = .float ↔ IsFloatLiteral lexeme) := by
    rcases List.mem_cons.1 hk with rfl | hk
    · exact ⟨⟨lexeme, [], [], by simp, hclass, .inl rfl, .inl rfl⟩,
        fun h ↦ absurd h (by decide), fun h ↦ absurd hclass h.2⟩
    · obtain rfl := List.mem_singleton.1 hk
      exact ⟨hclass.1, fun _ ↦ hclass, fun _ ↦ rfl⟩
  have hlong : Longest numberClass.matches' lexeme (b :: rest) := by
    refine ⟨mem_numberClass.2 hnumber.1, hl ▸ List.take_prefix _ _, fun other ho hp ↦ ?_⟩
    rw [← hlen]
    exact hwidth other (mem_numberClass.1 ho) hp
  refine .unquoted ?_ hne.1 (fun h ↦ absurd hk (classes_disjoint.1 _ h).1)
    (fun h ↦ absurd hk (classes_disjoint.1 _ h).1) (fun _ ↦ ⟨hlong, ?_⟩)
    (fun h ↦ absurd h (classes_disjoint.2.1 _ hk)) (fun _ ↦ hlen)
  · rintro rfl
    exact absurd hb (by decide)
  · rw [hnumber.2, mem_floatClass]

theorem Munch.bad (hq : b ≠ 34) (lexeme : Bytes) (width : Nat) :
    Munch (b :: rest) .bad lexeme width :=
  .unquoted hq (by decide) (fun h ↦ absurd h (by decide)) (fun h ↦ absurd h (by decide))
    (fun h ↦ absurd h (by decide)) (fun h ↦ absurd h (by decide)) (absurd rfl)

theorem munch_symbol (hq : b ≠ 34) (h : frontSymbol b (b :: rest) = .token kind lexeme width) :
    Munch (b :: rest) kind lexeme width := by
  unfold frontSymbol at h
  split at h
  · rename_i hf
    cases h
    have hm := List.mem_of_find?_eq_some hf
    have hk : kind ∈ symbolKinds := List.mem_map_of_mem hm
    have hne := classes_disjoint.2.2 _ (List.mem_append_right _ (List.mem_append_right _ hk))
    exact .unquoted hq hne.1 (fun h ↦ absurd hk (classes_disjoint.1 _ h).2)
      (fun h ↦ absurd hk (classes_disjoint.1 _ h).2)
      (fun h ↦ absurd hk (classes_disjoint.2.1 _ h)) (fun _ ↦ ⟨longest_symbol hf, hm⟩)
      (fun _ ↦ rfl)
  · cases h
    exact .bad hq _ _

theorem munch_string {inside : Bytes}
    (h : frontString (34 :: inside) = .token kind lexeme width) :
    Munch (34 :: inside) kind lexeme width := by
  have hcut : ∀ body c after, inside = body ++ c :: after → Interior body → Ends c after →
      kind = (if c = 34 then .string else .bad) ∧ lexeme = 34 :: (body ++ [c]) := by
    rintro body c after rfl hi hc
    have hw : stringWidth (c :: after) = (decide (c = 34), 1) := by
      rcases hc with rfl | rfl <;> simp
    have htake : (body ++ c :: after).take (body.length + 1) = body ++ [c] := by
      rw [List.append_cons]
      exact List.take_left' (by simp)
    simp only [frontString, List.drop_succ_cons, List.drop_zero, stringWidth_interior hi, hw,
      Front.taken, Front.token.injEq, decide_eq_true_eq] at h
    obtain ⟨rfl, rfl, -⟩ := h
    rw [Nat.add_comm 1, List.take_succ_cons, htake]
    exact ⟨rfl, rfl⟩
  have hendless : ¬Bare Ends inside → kind = .bad ∧ lexeme = 34 :: inside := by
    intro hn
    simp only [frontString, List.drop_succ_cons, List.drop_zero, stringWidth_endless hn,
      Front.taken, Front.token.injEq] at h
    obtain ⟨rfl, rfl, -⟩ := h
    rw [Nat.add_comm 1, List.take_succ_cons, List.take_length]
    exact ⟨rfl, rfl⟩
  have hk : kind ∉ wordKinds ∧ kind ∉ numberKinds ∧ kind ∉ symbolKinds := by
    simp only [frontString, Front.taken, Front.token.injEq] at h
    rw [← h.1]
    split <;> decide
  constructor
  case word => exact fun h ↦ absurd h hk.1
  case reserved => exact fun h ↦ absurd h hk.1
  case number => exact fun h ↦ absurd h hk.2.1
  case symbol => exact fun h ↦ absurd h hk.2.2
  case string =>
    constructor
    · rintro rfl
      by_cases hb : Bare Ends inside
      · obtain ⟨body, c, after, rfl, hi, hc⟩ := exists_interior hb
        rcases hc with rfl | rfl
        · exact ⟨body, after, rfl, hi⟩
        · cases (hcut body 10 after rfl hi (.inr rfl)).1
      · cases (hendless hb).1
    · rintro ⟨body, after, he, hi⟩
      cases he
      exact (hcut body 34 after rfl hi (.inl rfl)).1
  case quoted =>
    rintro body after he hi
    cases he
    exact (hcut body 34 after rfl hi (.inl rfl)).2
  case cut =>
    rintro body after he hi
    cases he
    exact hcut body 10 after rfl hi (.inr rfl)
  case endless =>
    rintro inside he hn
    cases he
    exact hendless hn
  case covered =>
    intro _
    have hc := frontString_covers inside
    simp only [frontString, Front.taken, Front.token.injEq] at h
    obtain ⟨-, rfl, rfl⟩ := h
    exact (List.length_take_of_le hc.2.1).symm

theorem front_munch (h : front b (b :: rest) = .token kind lexeme width) :
    Munch (b :: rest) kind lexeme width := by
  unfold front at h
  split at h
  · cases h
  split at h
  · cases h
  split at h
  · rename_i hc
    obtain rfl : b = 47 := by
      obtain ⟨tail, he⟩ := List.isPrefixOf_iff_prefix.1 hc
      cases he
      rfl
    unfold frontComment at h
    split at h
    · cases h
    · cases h
      exact .bad (by decide) _ _
  split at h
  · cases h
    exact munch_word ‹_›
  split at h
  · exact munch_number ‹_› h
  split at h
  · subst b
    exact munch_string h
  · exact munch_symbol ‹_› h

theorem mem_scanFrom {t : Token} (hk : t.kind ≠ .endOfFile) {bound : Nat} {before text : Bytes}
    (ht : t ∈ scanFrom bound before.length text) :
    ∃ pre b rest width, before ++ text = pre ++ b :: rest ∧
      t.span = ⟨pre.length, (pre.length + width : Nat)⟩ ∧
      front b (b :: rest) = .token t.kind t.lexeme width := by
  induction bound generalizing before text with
  | zero =>
    obtain rfl := List.mem_singleton.1 ht
    exact absurd rfl hk
  | succ bound ih =>
    cases text with
    | nil =>
      obtain rfl := List.mem_singleton.1 ht
      exact absurd rfl hk
    | cons b rest =>
      have hmove : ∀ width ≤ (b :: rest).length,
          t ∈ scanFrom bound (before.length + width) ((b :: rest).drop width) →
          ∃ pre c tail width', before ++ b :: rest = pre ++ c :: tail ∧
            t.span = ⟨pre.length, (pre.length + width' : Nat)⟩ ∧
            front c (c :: tail) = .token t.kind t.lexeme width' := by
        intro width hw hm
        have hlen : (before ++ (b :: rest).take width).length = before.length + width := by
          rw [List.length_append, List.length_take_of_le hw]
        rw [← hlen] at hm
        have h := ih hm
        rwa [List.append_assoc, List.take_append_drop] at h
      have hc := front_covers b rest
      simp only [scanFrom] at ht
      cases hf : front b (b :: rest) with
      | gap width =>
        rw [hf] at hc
        simp only [hf] at ht
        exact hmove width hc.2.1 ht
      | token kind lexeme width =>
        rw [hf] at hc
        simp only [hf] at ht
        rcases List.mem_cons.1 ht with rfl | ht
        · exact ⟨before, b, rest, width, rfl, rfl, hf⟩
        · exact hmove width hc.2.1 ht

/-- Tokens are maximal munches of their classes. -/
theorem scan_munches (text : Bytes) : ∀ t ∈ scan text, t.kind ≠ .endOfFile →
    Munch (text.drop t.span.start.toNat) t.kind t.lexeme (t.span.stop - t.span.start).toNat := by
  intro t ht hk
  obtain ⟨pre, b, rest, width, he, hspan, hf⟩ := @mem_scanFrom t hk _ [] text ht
  rw [List.nil_append] at he
  rw [hspan, he]
  simp only [Int.toNat_natCast, List.drop_left]
  rw [show ((pre.length + width : Nat) - pre.length : Int).toNat = width by omega]
  exact front_munch hf

theorem broken_exponent_munches : Munch (ascii "1.5e-x") .float (ascii "1.5") 3 :=
  scan_munches (ascii "1.5e-x") ⟨.float, ascii "1.5", ⟨0, 3⟩⟩ (by decide) (by decide)

end Munch

end PZero.Token
