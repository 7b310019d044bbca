import PZero.Proofs.Token.Gap

namespace PZero.Token

variable {f : File} {b : UInt8} {rest text gap covered : Bytes} {offset width : Nat} {kind : Kind}
  {lexeme : Bytes}

/-- The lexeme of a token that covers a text. Only that of a bad byte may differ from the text: it
is the code point of the byte. -/
def lexemeOf (kind : Kind) (covered : Bytes) : Bytes :=
  match kind, covered with
  | .bad, [b] => Utf8.ofByte b
  | _, _ => covered

/-- Tokens, each with the end of the one before it. -/
def successors : Int → List Token → List (Int × Token)
  | _, [] => []
  | stop, t :: tokens => (stop, t) :: successors t.span.stop tokens

def endOfFile (f : File) : Token := ⟨.endOfFile, [], f.input.length, f.input.length⟩

/-- The tokens tile what follows the first `start` bytes of a file. -/
structure Tiling (f : File) (start : Int) (tokens : List Token) : Prop where
  last : ∃ before, tokens = before ++ [endOfFile f] ∧ ∀ t ∈ before, t.kind ≠ .endOfFile
  inside : ∀ t ∈ tokens, start ≤ t.span.start ∧ t.span.stop ≤ f.input.length
  nonempty : ∀ t ∈ tokens, t.kind ≠ .endOfFile → t.span.start < t.span.stop
  ordered : tokens.Pairwise fun s t ↦ s.span.stop ≤ t.span.start
  gaps : ∀ p ∈ successors start tokens,
    Gap (f.slice ⟨p.1, p.2.span.start⟩) (f.slice ⟨p.2.span.start, f.input.length⟩)
  lexemes : ∀ t ∈ tokens, t.lexeme = lexemeOf t.kind (f.slice t.span)
  /-- A block comment that is never closed, behind a token and a gap, is the next token. -/
  unclosed : ∀ p ∈ successors start tokens, ∀ gap rest,
    f.slice ⟨p.1, f.input.length⟩ = gap ++ rest → Gap gap rest → Unclosed rest →
      p.2 = ⟨.bad, rest, f.input.length - rest.length, f.input.length⟩

section Front

/-- What the front of a text covers: a gap before any gap, or the text of a token. -/
def Front.Covers (text : Bytes) : Front → Prop
  | .gap width => 1 ≤ width ∧ width ≤ text.length ∧
    ∀ gap rest, Gap gap rest → gap ++ rest = text.drop width → Gap (text.take width ++ gap) rest
  | .token kind lexeme width => 1 ≤ width ∧ width ≤ text.length ∧
    lexeme = lexemeOf kind (text.take width)

theorem lexemeOf_of_ne (h : kind ≠ .bad) (covered : Bytes) : lexemeOf kind covered = covered := by
  cases kind <;> first | rfl | exact absurd rfl h

theorem lexemeOf_of_length (h : covered.length ≠ 1) : lexemeOf kind covered = covered := by
  unfold lexemeOf
  split
  · exact absurd rfl h
  · rfl

theorem ne_bad_of_isFixed (h : kind.isFixed = true) : kind ≠ .bad := by
  rintro rfl
  cases h

theorem wordKind_ne_bad (word : Bytes) : wordKind word ≠ .bad := by
  unfold wordKind
  cases hl : keywords.lookup word with
  | none => exact nofun
  | some kind =>
    obtain ⟨l₁, l₂, he, -⟩ := List.lookup_eq_some_iff.1 hl
    have hm : (word, kind) ∈ keywords := by simp [he]
    exact ne_bad_of_isFixed (table_fixed _ (List.mem_append_left _ hm)).1

theorem head_drop_takeWhile (text : Bytes) :
    ∀ b ∈ (text.drop (text.takeWhile (· != 10)).length).head?, b = 10 := by
  intro b hb
  have hd : text.drop (text.takeWhile (· != 10)).length = text.dropWhile (· != 10) := by
    have h := @List.drop_left _ (text.takeWhile (· != 10)) (text.dropWhile (· != 10))
    rwa [List.takeWhile_append_dropWhile] at h
  rw [hd] at hb
  have h := List.head?_dropWhile_not (· != 10) text
  rw [Option.mem_def] at hb
  rw [hb] at h
  simpa using h

theorem digitsWidth_le (text : Bytes) : digitsWidth text ≤ text.length :=
  (List.takeWhile_prefix _).length_le

theorem fractionWidth_le (text : Bytes) : fractionWidth text ≤ text.length := by
  unfold fractionWidth
  split
  · rename_i rest
    have h := digitsWidth_le rest
    split <;> simp only [List.length_cons] <;> omega
  · exact Nat.zero_le _

theorem exponentWidth_le (text : Bytes) : exponentWidth text ≤ text.length := by
  cases text with
  | nil => exact Nat.zero_le _
  | cons b rest =>
    have h := digitsWidth_le (rest.drop (signWidth rest))
    simp only [exponentWidth, List.length_cons]
    rw [List.length_drop] at h
    split
    · split <;> omega
    · omega

theorem stringWidth_le (text : Bytes) : (stringWidth text).2 ≤ text.length := by
  fun_induction stringWidth text with
  | case1 => exact Nat.le_refl _
  | case2 => simp
  | case3 => simp
  | case4 => simp
  | case5 => simp_all
  | case6 => simp_all

theorem frontNumber_covers (hb : Bytes.isDigit b) :
    (frontNumber (b :: rest)).Covers (b :: rest) := by
  generalize htext : b :: rest = text
  have hd : 1 ≤ digitsWidth text := by
    rw [← htext, digitsWidth, List.takeWhile_cons_of_pos hb]
    simp
  have hw := digitsWidth_le text
  have hf := fractionWidth_le (text.drop (digitsWidth text))
  have he := exponentWidth_le
    (text.drop (digitsWidth text + fractionWidth (text.drop (digitsWidth text))))
  simp only [List.length_drop] at hf he
  refine ⟨by omega, by omega, ?_⟩
  exact (lexemeOf_of_ne (by split <;> decide) _).symm

theorem frontString_covers (text : Bytes) : (frontString (34 :: text)).Covers (34 :: text) := by
  have hw := stringWidth_le text
  refine ⟨by omega, by rw [List.length_cons, List.drop_one, List.tail_cons]; omega, ?_⟩
  simp only [List.drop_succ_cons, List.drop_zero]
  rw [Nat.add_comm 1, List.take_succ_cons]
  generalize text.take (stringWidth text).2 = tail
  cases tail with
  | nil => split <;> rfl
  | cons c tail => exact (lexemeOf_of_length (by simp)).symm

theorem frontSymbol_covers (b : UInt8) (rest : Bytes) :
    (frontSymbol b (b :: rest)).Covers (b :: rest) := by
  unfold frontSymbol
  split
  · rename_i spelling kind hf
    have hm := List.mem_of_find?_eq_some hf
    have hp : spelling <+: b :: rest := by
      have h := List.find?_some hf
      exact List.isPrefixOf_iff_prefix.1 h
    have hs := (by decide : ∀ x ∈ symbols, 1 ≤ x.1.length) _ hm
    have hk := ne_bad_of_isFixed (table_fixed _ (List.mem_append_right _ hm)).1
    refine ⟨hs, hp.length_le, ?_⟩
    rw [lexemeOf_of_ne hk]
    exact List.prefix_iff_eq_take.1 hp
  · exact ⟨Nat.le_refl 1, by simp, rfl⟩

theorem line_covers (h : Bytes.startsWith text (ascii "//")) :
    (Front.gap (text.takeWhile (· != 10)).length).Covers text := by
  obtain ⟨tail, rfl⟩ := List.isPrefixOf_iff_prefix.1 h
  have hw : (ascii "//" ++ tail).takeWhile (· != 10) = ascii "//" ++ tail.takeWhile (· != 10) := rfl
  refine ⟨by rw [hw]; simp [ascii], (List.takeWhile_prefix _).length_le, ?_⟩
  intro gap rest hg he
  rw [take_takeWhile, hw, List.append_assoc]
  refine .line (fun hm ↦ ?_) ?_ hg
  · simpa using List.mem_takeWhile_imp hm
  · rw [he]
    exact head_drop_takeWhile _

theorem drop_opening (text : Bytes) : (ascii "/*" ++ text).drop 2 = text := rfl

theorem frontComment_covers (h : Bytes.startsWith text (ascii "/*")) :
    (frontComment text).Covers text := by
  obtain ⟨tail, rfl⟩ := List.isPrefixOf_iff_prefix.1 h
  rw [frontComment, drop_opening]
  split
  · rename_i width hw
    obtain ⟨hle, hc⟩ := isBlockComment_of_commentWidth hw
    refine ⟨by omega, by simp [opening_eq]; omega, ?_⟩
    intro gap rest hg _
    have htake : (ascii "/*" ++ tail).take (2 + width) = ascii "/*" ++ tail.take width := by
      rw [Nat.add_comm]
      rfl
    rw [htake]
    exact .block hc hg
  · refine ⟨by simp [opening_eq], Nat.le_refl _, ?_⟩
    rw [List.take_length]
    exact (lexemeOf_of_length (by simp [opening_eq])).symm

theorem front_covers (b : UInt8) (rest : Bytes) : (front b (b :: rest)).Covers (b :: rest) := by
  unfold front
  split
  · rename_i hb
    exact ⟨Nat.le_refl 1, by simp, fun _ _ hg _ ↦ .blank hb hg⟩
  split
  · exact line_covers ‹_›
  split
  · exact frontComment_covers ‹_›
  split
  · rename_i hb
    have hw : (b :: rest).takeWhile isWordByte = b :: rest.takeWhile isWordByte :=
      List.takeWhile_cons_of_pos (by simp [isWordByte, hb])
    refine ⟨by rw [hw]; simp, (List.takeWhile_prefix _).length_le, ?_⟩
    rw [lexemeOf_of_ne (wordKind_ne_bad _), take_takeWhile]
  split
  · exact frontNumber_covers ‹_›
  split
  · rename_i hq
    subst hq
    exact frontString_covers rest
  · exact frontSymbol_covers b rest

theorem front_ne_endOfFile (h : front b (b :: rest) = .token kind lexeme width) :
    kind ≠ .endOfFile := by
  rcases front_fine b rest with ⟨width', h'⟩ | ⟨kind', lexeme', width', h', hfine⟩
  · rw [h] at h'
    cases h'
  · rw [h] at h'
    cases h'
    exact hfine.1

end Front

section Scan

theorem length_drop_cons (b : UInt8) (rest : Bytes) (h : 1 ≤ width) :
    ((b :: rest).drop width).length ≤ rest.length := by
  rw [List.length_drop, List.length_cons]
  omega

/-- Every front takes a byte, so any bound from the length of the text on gives the same tokens. -/
theorem scanFrom_eq {m n : Nat} (hm : text.length ≤ m) (hn : text.length ≤ n) (offset : Nat) :
    scanFrom m offset text = scanFrom n offset text := by
  induction m generalizing n text offset with
  | zero =>
    rw [List.length_eq_zero_iff.1 (Nat.le_zero.1 hm)]
    cases n <;> rfl
  | succ m ih =>
    cases text with
    | nil => cases n <;> rfl
    | cons b rest =>
      obtain ⟨n, rfl⟩ : ∃ k, n = k + 1 := ⟨n - 1, by simp at hn; omega⟩
      simp only [List.length_cons, Nat.add_le_add_iff_right] at hm hn
      have hc := front_covers b rest
      simp only [scanFrom]
      cases hf : front b (b :: rest) with
      | gap width =>
        rw [hf] at hc
        have hlen := length_drop_cons b rest hc.1
        exact ih (hlen.trans hm) (hlen.trans hn) _
      | token kind lexeme width =>
        rw [hf] at hc
        have hlen := length_drop_cons b rest hc.1
        exact congrArg _ (ih (hlen.trans hm) (hlen.trans hn) _)

/-- The tokens of a text that starts at `offset`. -/
def scanAt (offset : Nat) (text : Bytes) : List Token := scanFrom text.length offset text

theorem scanAt_nil (offset : Nat) : scanAt offset [] = [⟨.endOfFile, [], offset, offset⟩] := rfl

theorem scanAt_of_gap (hb : (gap ++ text).head? = some b)
    (h : front b (gap ++ text) = .gap gap.length) (offset : Nat) :
    scanAt offset (gap ++ text) = scanAt (offset + gap.length) text := by
  obtain ⟨rest, he⟩ := List.head?_eq_some_iff.1 hb
  have hc := front_covers b rest
  rw [← he, h] at hc
  have hlen := length_drop_cons b rest hc.1
  rw [← he, List.drop_left] at hlen
  rw [he] at h ⊢
  simp only [scanAt, List.length_cons, scanFrom, h]
  rw [← he, List.drop_left]
  exact scanFrom_eq hlen (Nat.le_refl _) _

theorem scanAt_of_token (hb : (covered ++ text).head? = some b)
    (h : front b (covered ++ text) = .token kind lexeme covered.length) (offset : Nat) :
    scanAt offset (covered ++ text) = ⟨kind, lexeme, offset, (offset + covered.length : Nat)⟩ ::
      scanAt (offset + covered.length) text := by
  obtain ⟨rest, he⟩ := List.head?_eq_some_iff.1 hb
  have hc := front_covers b rest
  rw [← he, h] at hc
  have hlen := length_drop_cons b rest hc.1
  rw [← he, List.drop_left] at hlen
  rw [he] at h ⊢
  simp only [scanAt, List.length_cons, scanFrom, h]
  rw [← he, List.drop_left]
  exact congrArg _ (scanFrom_eq hlen (Nat.le_refl _) _)

theorem front_line (text : Bytes) : front 47 (ascii "//" ++ text) =
    .gap (ascii "//" ++ text.takeWhile (· != 10)).length := rfl

theorem front_comment (text : Bytes) :
    front 47 (ascii "/*" ++ text) = frontComment (ascii "/*" ++ text) := rfl

theorem takeWhile_line (ht : 10 ∉ text) (he : ∀ b ∈ rest.head?, b = 10) :
    (text ++ rest).takeWhile (· != 10) = text := by
  have hrest : rest.takeWhile (· != 10) = [] := by
    cases rest with
    | nil => rfl
    | cons b rest =>
      obtain rfl : b = 10 := he b rfl
      rfl
  rw [List.takeWhile_append_of_pos, hrest, List.append_nil]
  intro b hb
  simpa using ne_of_mem_of_not_mem hb ht

theorem scanAt_gap (h : Gap gap rest) (offset : Nat) :
    scanAt offset (gap ++ rest) = scanAt (offset + gap.length) rest := by
  induction h generalizing offset with
  | nil => rfl
  | @blank b gap rest hb _ ih =>
    have hf : front b ([b] ++ (gap ++ rest)) = .gap [b].length := by
      rw [front, if_pos hb, List.length_singleton]
    have hs := scanAt_of_gap rfl hf offset
    rw [ih, Nat.add_assoc, ← List.length_append, ← List.append_assoc] at hs
    exact hs
  | @line text gap rest ht he _ ih =>
    have hf : front 47 (ascii "//" ++ text ++ (gap ++ rest)) =
        .gap (ascii "//" ++ text).length := by
      rw [List.append_assoc, front_line, takeWhile_line ht he]
    have hs := scanAt_of_gap rfl hf offset
    rw [ih, Nat.add_assoc, ← List.length_append] at hs
    simpa only [List.append_assoc] using hs
  | @block comment gap rest hc _ ih =>
    obtain ⟨inside, rfl, hi⟩ := hc
    have hf : front 47 (ascii "/*" ++ (inside ++ ascii "*/") ++ (gap ++ rest)) =
        .gap (ascii "/*" ++ (inside ++ ascii "*/")).length := by
      rw [List.append_assoc, front_comment, List.append_assoc, frontComment, drop_opening,
        commentWidth_of_inside hi]
      simp only [List.length_append]
      rfl
    have hs := scanAt_of_gap rfl hf offset
    rw [ih, Nat.add_assoc, ← List.length_append] at hs
    simpa only [List.append_assoc] using hs

theorem scanAt_unclosed (h : Unclosed rest) (offset : Nat) :
    scanAt offset rest = [⟨.bad, rest, offset, (offset + rest.length : Nat)⟩,
      ⟨.endOfFile, [], (offset + rest.length : Nat), (offset + rest.length : Nat)⟩] := by
  obtain ⟨tail, rfl⟩ := h.1
  have hf : front 47 (ascii "/*" ++ tail ++ []) =
      .token .bad (ascii "/*" ++ tail) (ascii "/*" ++ tail).length := by
    rw [List.append_nil, front_comment, frontComment, drop_opening, unclosed_iff.1 h, Front.taken,
      List.take_length]
  have hs := scanAt_of_token rfl hf offset
  rwa [List.append_nil] at hs

theorem exists_gap (text : Bytes) : ∃ gap rest, text = gap ++ rest ∧ Gap gap rest ∧
    (rest = [] ∨ ∃ b kind lexeme width, rest.head? = some b ∧
      front b rest = .token kind lexeme width) := by
  induction hn : text.length using Nat.strong_induction_on generalizing text with
  | _ n ih =>
    cases text with
    | nil => exact ⟨[], [], rfl, .nil, .inl rfl⟩
    | cons b tail =>
      cases hf : front b (b :: tail) with
      | gap width =>
        obtain ⟨hw, -, hgap⟩ : Front.Covers (b :: tail) (.gap width) := hf ▸ front_covers b tail
        have hlt : ((b :: tail).drop width).length < n := by
          have h := length_drop_cons b tail hw
          rw [List.length_cons] at hn
          omega
        obtain ⟨gap, rest, he, hg, hr⟩ := ih _ hlt _ rfl
        refine ⟨(b :: tail).take width ++ gap, rest, ?_, hgap gap rest hg he.symm, hr⟩
        rw [List.append_assoc, ← he, List.take_append_drop]
      | token kind lexeme width =>
        exact ⟨[], b :: tail, rfl, .nil, .inr ⟨b, kind, lexeme, width, rfl, hf⟩⟩

end Scan

section Tile

variable {before after : Bytes} {tokens : List Token}

theorem slice_between {mid : Bytes} (h : f.input = before ++ (mid ++ after)) :
    f.slice ⟨before.length, (before.length + mid.length : Nat)⟩ = mid := by
  have hlen : f.input.length = before.length + (mid.length + after.length) := by
    rw [h, List.length_append, List.length_append]
  unfold File.slice
  rw [if_pos (by simp only; omega), h]
  simp only [Int.toNat_natCast]
  rw [List.drop_left, show ((before.length + mid.length : Nat) - before.length : Int).toNat =
    mid.length by omega, List.take_left]

theorem slice_after (h : f.input = before ++ after) :
    f.slice ⟨before.length, f.input.length⟩ = after := by
  have he : f.input = before ++ (after ++ []) := by rwa [List.append_nil]
  have hs := slice_between he
  rwa [← List.length_append, ← h] at hs

theorem Tiling.atEnd (h : f.input = before ++ gap) (hg : Gap gap []) :
    Tiling f before.length [endOfFile f] where
  last := ⟨[], rfl, by simp⟩
  inside := by
    refine List.forall_mem_singleton.2 ⟨?_, Int.le_refl _⟩
    simp only [endOfFile, h, List.length_append]
    omega
  nonempty := List.forall_mem_singleton.2 (absurd rfl)
  ordered := List.pairwise_singleton _ _
  gaps := by
    refine List.forall_mem_singleton.2 ?_
    have he := slice_after (f := f) (List.append_nil _).symm
    simp only [endOfFile]
    rwa [slice_after h, he]
  lexemes := by
    refine List.forall_mem_singleton.2 ?_
    exact (slice_after (f := f) (List.append_nil _).symm).symm
  unclosed := by
    refine List.forall_mem_singleton.2 fun gap' rest he hg' hr ↦ ?_
    rw [slice_after h] at he
    have h₁ := scanAt_gap hg 0
    have h₂ := scanAt_gap hg' 0
    rw [List.append_nil, he, h₂, scanAt_unclosed hr] at h₁
    simp [scanAt_nil] at h₁

theorem front_unclosed (hg : Gap gap (covered ++ rest)) (hb : (covered ++ rest).head? = some b)
    (hf : front b (covered ++ rest) = .token kind lexeme covered.length) {gap' rest' : Bytes}
    (hg' : Gap gap' rest') (hr : Unclosed rest') (he : gap ++ (covered ++ rest) = gap' ++ rest') :
    kind = .bad ∧ lexeme = rest' ∧ covered = rest' ∧ rest = [] := by
  have hs := scanAt_gap hg' 0
  rw [← he, scanAt_gap hg, scanAt_of_token hb hf, scanAt_unclosed hr] at hs
  injection hs with ht _
  simp only [Token.mk.injEq, Span.mk.injEq, Int.natCast_inj, Nat.zero_add] at ht
  obtain ⟨hk, hl, hstart, hstop⟩ := ht
  have hcovered := (List.append_inj he hstart).2
  have hlen := congrArg List.length hcovered
  rw [List.length_append] at hlen
  obtain rfl : rest = [] := List.length_eq_zero_iff.1 (by omega)
  exact ⟨hk, hl, by rwa [List.append_nil] at hcovered, rfl⟩

theorem Tiling.next (h : f.input = before ++ (gap ++ (covered ++ rest)))
    (hg : Gap gap (covered ++ rest)) (hb : (covered ++ rest).head? = some b)
    (hf : front b (covered ++ rest) = .token kind lexeme covered.length)
    (ht : Tiling f (before ++ gap ++ covered).length tokens) :
    Tiling f before.length (⟨kind, lexeme, (before ++ gap).length,
      (before ++ gap ++ covered).length⟩ :: tokens) := by
  have hbehind : f.input = before ++ gap ++ (covered ++ rest) := by rw [h, List.append_assoc]
  obtain ⟨tail, he⟩ := List.head?_eq_some_iff.1 hb
  rw [he] at hf
  obtain ⟨hw, -, hl⟩ : Front.Covers (b :: tail) (.token kind lexeme covered.length) :=
    hf ▸ front_covers b tail
  have hk := front_ne_endOfFile hf
  rw [← he] at hf hl
  rw [List.take_left] at hl
  constructor
  case last =>
    obtain ⟨pre, rfl, hp⟩ := ht.last
    exact ⟨_ :: pre, rfl, List.forall_mem_cons.2 ⟨hk, hp⟩⟩
  case inside =>
    refine List.forall_mem_cons.2 ⟨?_, fun t hm ↦ ?_⟩
    · simp only [h, List.length_append]
      omega
    · have hi := ht.inside t hm
      simp only [List.length_append] at hi
      omega
  case nonempty =>
    refine List.forall_mem_cons.2 ⟨fun _ ↦ ?_, ht.nonempty⟩
    simp only [List.length_append]
    omega
  case ordered => exact List.pairwise_cons.2 ⟨fun t hm ↦ (ht.inside t hm).1, ht.ordered⟩
  case gaps =>
    refine List.forall_mem_cons.2 ⟨?_, ht.gaps⟩
    simp only
    rw [slice_after hbehind, List.length_append, slice_between h]
    exact hg
  case lexemes =>
    refine List.forall_mem_cons.2 ⟨?_, ht.lexemes⟩
    rw [hl, @List.length_append _ _ covered, slice_between hbehind]
  case unclosed =>
    refine List.forall_mem_cons.2 ⟨fun gap' rest' he' hg' hr ↦ ?_, ht.unclosed⟩
    rw [slice_after h] at he'
    obtain ⟨rfl, rfl, hcovered, rfl⟩ := front_unclosed hg hb hf hg' hr he'
    rw [List.append_nil, hcovered] at hbehind
    have hstart : ((before ++ gap).length : Int) = f.input.length - lexeme.length := by
      rw [hbehind, @List.length_append _ _ lexeme]
      omega
    rw [hcovered, ← hstart, hbehind]

theorem tiling_scanAt (h : f.input = before ++ text) :
    Tiling f before.length (scanAt before.length text) := by
  induction hn : text.length using Nat.strong_induction_on generalizing before text with
  | _ n ih =>
    obtain ⟨gap, rest, rfl, hg, rfl | ⟨b, kind, lexeme, width, hb, hf⟩⟩ := exists_gap text
    · rw [List.append_nil] at h
      have hlen : f.input.length = before.length + gap.length := by rw [h, List.length_append]
      rw [scanAt_gap hg, scanAt_nil, ← hlen]
      exact .atEnd h hg
    · obtain ⟨tail, rfl⟩ := List.head?_eq_some_iff.1 hb
      obtain ⟨hw, hle, -⟩ : Front.Covers (b :: tail) (.token kind lexeme width) :=
        hf ▸ front_covers b tail
      have hlen := List.length_take_of_le hle
      have htake := List.take_append_drop width (b :: tail)
      generalize (b :: tail).take width = covered at hlen htake
      generalize (b :: tail).drop width = rest at htake
      rw [← htake] at h hg hb hf hn ⊢
      subst hlen
      have hrest : f.input = before ++ gap ++ covered ++ rest := by
        simp only [h, List.append_assoc]
      have hlt : rest.length < n := by
        simp only [List.length_append] at hn
        omega
      have ht := ih _ hlt hrest rfl
      have hnext := ht.next h hg hb hf
      simp only [List.length_append] at hnext
      rw [scanAt_gap hg, scanAt_of_token hb hf]
      exact hnext

theorem scan_tiles (f : File) : Tiling f 0 (scan f.input) :=
  tiling_scanAt (List.nil_append _).symm

end Tile

end PZero.Token
