import PZero.Proofs.Surface.Lexemes

namespace PZero

namespace Token

open Surface (IsDigits IsName IsFraction IsExponent)

/-- What follows a word: nothing, or a space. -/
def Parted (tail : Bytes) : Prop := tail = [] ∨ ∃ rest, tail = 32 :: rest

theorem takeWhile_parted {p : UInt8 → Bool} {text tail : Bytes} (hp : p 32 = false)
    (ht : Parted tail) (h : ∀ b ∈ text, p b) : (text ++ tail).takeWhile p = text := by
  rw [List.takeWhile_append_of_pos h]
  rcases ht with rfl | ⟨rest, rfl⟩
  · simp
  · simp [hp]

/-- A text whose front is a word of a kind, whatever follows behind a space. -/
def Fronts (kind : Kind) (lexeme : Bytes) : Prop :=
  ∀ tail, Parted tail → ∃ b rest, lexeme = b :: rest ∧
    front b (lexeme ++ tail) = .token kind lexeme lexeme.length

theorem startsWith_comment {b : UInt8} (h : b ≠ 47) (rest : Bytes) (c : UInt8) :
    Bytes.startsWith (b :: rest) [47, c] = false := by
  simp [Bytes.startsWith, List.isPrefixOf, h.symm]

theorem front_name {b : UInt8} (h : isWordStart b = true) (rest : Bytes) :
    front b (b :: rest) =
      let word := (b :: rest).takeWhile isWordByte
      .token (wordKind word) word word.length := by
  have hr : ¬b ≤ 32 ∧ b ≠ 47 := by
    simp only [isWordStart, Bytes.isLetter, Bool.or_eq_true, Bool.and_eq_true,
      decide_eq_true_eq] at h
    grind
  have hline := startsWith_comment hr.2 rest 47
  have hblock := startsWith_comment hr.2 rest 42
  rw [front, if_neg hr.1, if_neg (by rw [show ascii "//" = [47, 47] from rfl, hline]; decide),
    if_neg (by rw [show ascii "/*" = [47, 42] from rfl, hblock]; decide), if_pos h]

theorem name_fronts {name : Bytes} (h : IsName name) : Fronts (wordKind name) name := by
  intro tail ht
  obtain ⟨⟨b, rest, rfl, hb⟩, hall⟩ := h
  refine ⟨b, rest, rfl, ?_⟩
  have hw := takeWhile_parted (p := isWordByte) (by decide) ht hall
  rw [List.cons_append] at hw ⊢
  rw [front_name hb, hw]

theorem front_digit {b : UInt8} (h : Bytes.isDigit b = true) (rest : Bytes) :
    front b (b :: rest) = frontNumber (b :: rest) := by
  have hr : ¬b ≤ 32 ∧ b ≠ 47 ∧ isWordStart b = false := by
    simp only [isWordStart, Bytes.isDigit, Bytes.isLetter, Bool.and_eq_true,
      decide_eq_true_eq] at h ⊢
    grind
  have hline := startsWith_comment hr.2.1 rest 47
  have hblock := startsWith_comment hr.2.1 rest 42
  rw [front, if_neg hr.1, if_neg (by rw [show ascii "//" = [47, 47] from rfl, hline]; decide),
    if_neg (by rw [show ascii "/*" = [47, 42] from rfl, hblock]; decide),
    if_neg (by rw [hr.2.2]; decide), if_pos h]

theorem digitsWidth_append {digits tail : Bytes} (h : IsDigits digits)
    (ht : ∀ b rest, tail = b :: rest → Bytes.isDigit b = false) :
    digitsWidth (digits ++ tail) = digits.length := by
  rw [digitsWidth, List.takeWhile_append_of_pos h.2]
  cases tail with
  | nil => simp
  | cons b rest => simp [ht b rest rfl]

theorem parted_noDigit {tail : Bytes} (ht : Parted tail) :
    ∀ b rest, tail = b :: rest → Bytes.isDigit b = false := by
  rintro b rest rfl
  rcases ht with h | ⟨_, h⟩ <;> cases h
  decide

theorem exponentWidth_parted {tail : Bytes} (ht : Parted tail) : exponentWidth tail = 0 := by
  rcases ht with rfl | ⟨rest, rfl⟩ <;> rfl

theorem exponent_head {exponent tail : Bytes} (he : IsExponent exponent) (ht : Parted tail) :
    ∀ b rest, exponent ++ tail = b :: rest → b ≠ 46 ∧ Bytes.isDigit b = false := by
  rintro b rest h
  rcases he with rfl | ⟨mark, sign, digits, rfl, hm, -⟩
  · rw [List.nil_append] at h
    rcases ht with rfl | ⟨_, rfl⟩ <;> cases h
    decide
  · cases h
    simp only [List.mem_cons, List.not_mem_nil, or_false] at hm
    rcases hm with rfl | rfl <;> decide

theorem fractionWidth_append {fraction exponent tail : Bytes} (hf : IsFraction fraction)
    (he : IsExponent exponent) (ht : Parted tail) :
    fractionWidth (fraction ++ (exponent ++ tail)) = fraction.length := by
  have hhead := exponent_head he ht
  rcases hf with rfl | ⟨digits, rfl, hd⟩
  · cases hx : exponent ++ tail with
    | nil => rfl
    | cons b rest =>
      have hb := (hhead b rest hx).1
      rw [List.nil_append, fractionWidth]
      · rfl
      · rintro _ h
        cases h
        exact hb rfl
  · have hw := digitsWidth_append hd fun b rest h ↦ (hhead b rest h).2
    have hpos := List.length_pos_iff.2 hd.1
    rw [List.cons_append, fractionWidth, hw, if_neg (by omega), List.length_cons]
    omega

theorem signWidth_append {sign digits : Bytes} (hs : sign ∈ [[], [43], [45]])
    (hd : IsDigits digits) (tail : Bytes) :
    signWidth (sign ++ (digits ++ tail)) = sign.length := by
  simp only [List.mem_cons, List.not_mem_nil, or_false] at hs
  rcases hs with rfl | rfl | rfl
  · obtain ⟨b, rest, rfl⟩ := List.exists_cons_of_ne_nil hd.1
    have hb := hd.2 b List.mem_cons_self
    simp only [signWidth, List.nil_append, List.cons_append, List.length_nil]
    rw [if_neg]
    simp only [Bool.or_eq_true, decide_eq_true_eq]
    rintro (rfl | rfl) <;> exact absurd hb (by decide)
  · rfl
  · rfl

theorem exponentWidth_append {exponent tail : Bytes} (he : IsExponent exponent)
    (ht : Parted tail) : exponentWidth (exponent ++ tail) = exponent.length := by
  rcases he with rfl | ⟨mark, sign, digits, rfl, hm, hs, hd⟩
  · exact exponentWidth_parted ht
  · have hmark : (mark = 101 || mark = 69) = true := by simpa using hm
    have hw := digitsWidth_append hd (parted_noDigit ht)
    have hpos := List.length_pos_iff.2 hd.1
    simp only [List.cons_append, List.append_assoc, exponentWidth, hmark, if_true,
      signWidth_append hs hd, List.drop_left, hw]
    rw [if_neg (by omega), List.length_cons, List.length_append]
    omega

theorem frontNumber_append {whole fraction exponent tail : Bytes} (hw : IsDigits whole)
    (hf : IsFraction fraction) (he : IsExponent exponent) (ht : Parted tail) :
    frontNumber (whole ++ (fraction ++ exponent) ++ tail) =
      .token (if fraction.length + exponent.length = 0 then .int else .float)
        (whole ++ (fraction ++ exponent)) (whole ++ (fraction ++ exponent)).length := by
  have hwidth : digitsWidth (whole ++ (fraction ++ (exponent ++ tail))) = whole.length := by
    refine digitsWidth_append hw ?_
    rintro b rest h
    rcases hf with rfl | ⟨digits, rfl, -⟩
    · exact (exponent_head he ht b rest h).2
    · cases h
      decide
  have hlen : (whole ++ (fraction ++ exponent)).length =
      whole.length + fraction.length + exponent.length := by
    rw [List.length_append, List.length_append, Nat.add_assoc]
  have htake : (whole ++ (fraction ++ (exponent ++ tail))).take
      (whole.length + fraction.length + exponent.length) = whole ++ (fraction ++ exponent) := by
    rw [← hlen, ← List.append_assoc fraction, ← List.append_assoc whole (fraction ++ exponent),
      List.take_left]
  have hdrop : (whole ++ (fraction ++ (exponent ++ tail))).drop (whole.length + fraction.length) =
      exponent ++ tail := by
    rw [← List.append_assoc whole, ← List.length_append, List.drop_left]
  rw [List.append_assoc, List.append_assoc]
  simp only [frontNumber, hwidth, List.drop_left, fractionWidth_append hf he ht, hdrop,
    exponentWidth_append he ht, Front.taken, htake, hlen]

theorem int_fronts {text : Bytes} (h : IsDigits text) : Fronts .int text := by
  intro tail ht
  obtain ⟨b, rest, rfl⟩ := List.exists_cons_of_ne_nil h.1
  refine ⟨b, rest, rfl, ?_⟩
  have hn := frontNumber_append h (.inl rfl) (.inl rfl) ht
  simp only [List.append_nil] at hn
  rw [List.cons_append, front_digit (h.2 b List.mem_cons_self), ← List.cons_append, hn]
  rfl

theorem float_fronts {text : Bytes} (h : IsFloatLiteral text) : Fronts .float text := by
  intro tail ht
  obtain ⟨⟨whole, fraction, exponent, rfl, hw, hf, he⟩, hnot⟩ := h
  obtain ⟨b, rest, rfl⟩ := List.exists_cons_of_ne_nil hw.1
  refine ⟨b, rest ++ (fraction ++ exponent), rfl, ?_⟩
  have hne : fraction.length + exponent.length ≠ 0 := by
    intro h0
    obtain rfl : fraction = [] := List.eq_nil_of_length_eq_zero (by omega)
    obtain rfl : exponent = [] := List.eq_nil_of_length_eq_zero (by omega)
    exact hnot (by simpa using hw)
  have hn := frontNumber_append hw hf he ht
  rw [if_neg hne] at hn
  rw [← hn]
  exact front_digit (hw.2 b List.mem_cons_self) _

theorem stringWidth_append {text : Bytes} (h : IsStringTail text) (tail : Bytes) :
    stringWidth (text ++ tail) = (true, text.length) := by
  induction h with
  | close => simp
  | escaped b _ ih =>
    rw [List.cons_append, List.cons_append, stringWidth_escaped, ih]
    rfl
  | byte hn hq hs _ ih =>
    rw [List.cons_append, stringWidth_byte hn hq hs, ih]
    rfl

theorem front_string {text : Bytes} (h : IsString text) (tail : Bytes) :
    front 34 (text ++ tail) = .token .string text text.length := by
  obtain ⟨rest, rfl, hr⟩ := h
  have hfront : front 34 (34 :: (rest ++ tail)) = frontString (34 :: (rest ++ tail)) := rfl
  rw [List.cons_append, hfront, frontString]
  simp only [List.drop_succ_cons, List.drop_zero, stringWidth_append hr, if_true, Front.taken]
  rw [Nat.add_comm 1, List.take_succ_cons, List.take_left, List.length_cons]

theorem string_fronts {text : Bytes} (h : IsString text) : Fronts .string text := by
  intro tail _
  have hf := front_string h tail
  obtain ⟨rest, rfl, -⟩ := h
  exact ⟨34, rest, rfl, hf⟩

theorem keyword_fronts {x : Bytes × Kind} (h : x ∈ keywords) : Fronts x.2 x.1 := by
  have hkind : ∀ x ∈ keywords, wordKind x.1 = x.2 ∧ isWordStart (x.1.headD 0) = true ∧
      x.1 ≠ [] ∧ x.1.all isWordByte = true := by decide
  obtain ⟨hk, hs, hne, hall⟩ := hkind x h
  obtain ⟨b, rest, hx⟩ := List.exists_cons_of_ne_nil hne
  rw [← hk]
  refine name_fronts ⟨⟨b, rest, hx, ?_⟩, List.all_eq_true.1 hall⟩
  rwa [hx] at hs

theorem symbol_fronts {x : Bytes × Kind} (h : x ∈ symbols) : Fronts x.2 x.1 := by
  intro tail ht
  have hne : ∀ x ∈ symbols, x.1 ≠ [] := by decide
  have hfront : ∀ x ∈ symbols, front (x.1.headD 0) (x.1 ++ tail) = .token x.2 x.1 x.1.length := by
    rcases ht with rfl | ⟨rest, rfl⟩
    · decide
    · simp only [symbols, List.forall_mem_cons, List.not_mem_nil, false_imp_iff, implies_true,
        and_true]
      repeat' constructor
  obtain ⟨b, rest, hx⟩ := List.exists_cons_of_ne_nil (hne x h)
  refine ⟨b, rest, hx, ?_⟩
  have hf := hfront x h
  rw [hx] at hf ⊢
  exact hf

theorem fixed_in_table {kind : Kind} (h : kind.isFixed = true) :
    (kind.spelling, kind) ∈ keywords ++ symbols := by
  cases kind <;> first | decide | cases h

theorem wordKind_ident {name : Bytes} (h : IsIdent name) : wordKind name = .ident := by
  have hl : keywords.lookup name = none := by
    refine List.lookup_eq_none_iff.2 fun p hp ↦ ?_
    rw [bne_iff_ne]
    rintro rfl
    exact h.2 (List.mem_map_of_mem hp)
  rw [wordKind, hl]
  rfl

theorem proper_fronts {w : Word} (h : Proper w) : Fronts w.1 w.2 := by
  obtain ⟨kind, text⟩ := w
  obtain ⟨hb, he, hc⟩ := h
  cases hf : kind.isFixed with
  | true =>
    obtain rfl := eq_spelling hf hc
    rcases List.mem_append.1 (fixed_in_table hf) with hm | hm
    · exact keyword_fronts hm
    · exact symbol_fronts hm
  | false =>
    cases kind <;> try cases hf
    · exact absurd rfl he
    · exact absurd rfl hb
    · have hn := name_fronts hc.1
      rwa [wordKind_ident hc] at hn
    · exact int_fronts hc
    · exact float_fronts hc
    · exact string_fronts hc

def joined (ws : List Word) : Bytes := List.intercalate [32] (ws.map Prod.snd)

@[simp] theorem joined_singleton (w : Word) : joined [w] = w.2 := by
  simp [joined, List.intercalate]

@[simp] theorem joined_cons_cons (w v : Word) (ws : List Word) :
    joined (w :: v :: ws) = w.2 ++ 32 :: joined (v :: ws) := by
  simp [joined, List.intercalate]

theorem scanFrom_word {w : Word} (h : Proper w) {tail : Bytes} (ht : Parted tail)
    {bound : Nat} (hb : (w.2 ++ tail).length ≤ bound) (offset : Nat) :
    ∃ bound' offset', tail.length ≤ bound' ∧ (scanFrom bound offset (w.2 ++ tail)).map Token.word =
      w :: (scanFrom bound' offset' tail).map Token.word := by
  obtain ⟨b, rest, hx, hf⟩ := proper_fronts h tail ht
  cases bound with
  | zero => simp [hx] at hb
  | succ bound =>
    refine ⟨bound, offset + w.2.length, ?_, ?_⟩
    · rw [hx, List.length_append, List.length_cons] at hb
      omega
    · have hdrop : (w.2 ++ tail).drop w.2.length = tail := List.drop_left
      rw [hx, List.cons_append] at hf hdrop ⊢
      simp only [scanFrom, hf, hdrop, List.map_cons]
      rw [← hx]
      rfl

theorem scanFrom_joined {ws : List Word} (h : ∀ w ∈ ws, Proper w) {bound : Nat} (offset : Nat)
    (hb : (joined ws).length ≤ bound) :
    (scanFrom bound offset (joined ws)).map Token.word = ws ++ [(.endOfFile, [])] := by
  induction ws generalizing bound offset with
  | nil => cases bound <;> rfl
  | cons w ws ih =>
    obtain ⟨hw, hws⟩ := List.forall_mem_cons.1 h
    cases ws with
    | nil =>
      rw [joined_singleton] at hb ⊢
      rw [← List.append_nil w.2] at hb ⊢
      obtain ⟨bound', offset', -, hs⟩ := scanFrom_word hw (.inl rfl) hb offset
      rw [hs]
      cases bound' <;> rfl
    | cons v ws =>
      rw [joined_cons_cons] at hb ⊢
      obtain ⟨bound', offset', hb', hs⟩ := scanFrom_word hw (.inr ⟨_, rfl⟩) hb offset
      -- the space is a gap
      cases bound' with
      | zero => simp at hb'
      | succ bound' =>
        have hgap : scanFrom (bound' + 1) offset' (32 :: joined (v :: ws)) =
            scanFrom bound' (offset' + 1) (joined (v :: ws)) := rfl
        rw [hs, hgap, ih hws _ (by simpa using hb')]
        rfl

/-- Words that can stand in a program, joined by spaces, are the tokens of the text. -/
theorem scan_joined {ws : List Word} (h : ∀ w ∈ ws, Proper w) :
    (scan (joined ws)).map Token.word = ws ++ [(.endOfFile, [])] :=
  scanFrom_joined h 0 (Nat.le_refl _)

end Token

end PZero
