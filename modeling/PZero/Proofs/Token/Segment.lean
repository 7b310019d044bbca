import PZero.Proofs.Token.Munch

namespace PZero.Token

variable {b : UInt8} {text less tail covered lexeme lexeme' : Bytes} {kind kind' : Kind}
  {width width' : Nat}

section Less

theorem Longest.unique {class_ : Language UInt8} {word word' : Bytes} (h : Longest class_ word text)
    (h' : Longest class_ word' less) (hw : word <+: less) (hless : less <+: text) :
    word' = word := by
  have hle := h.2.2 word' h'.1 (h'.2.1.trans hless)
  have hge := h'.2.2 word h.1 hw
  exact (List.prefix_of_prefix_length_le h'.2.1 hw hle).eq_of_length (Nat.le_antisymm hle hge)

theorem kind_unique : ∀ x ∈ keywords ++ symbols, ∀ y ∈ keywords ++ symbols, x.1 = y.1 → x = y := by
  decide

theorem Munch.same (h : Munch text kind lexeme width) (h' : Munch less kind' lexeme' width')
    (hl : lexeme <+: less) (hless : less <+: text)
    (hk : kind ∈ wordKinds ∧ kind' ∈ wordKinds ∨ kind ∈ numberKinds ∧ kind' ∈ numberKinds ∨
      kind ∈ symbolKinds ∧ kind' ∈ symbolKinds) :
    kind' = kind ∧ lexeme' = lexeme ∧ width' = width := by
  have hne : kind ≠ .bad ∧ kind' ≠ .bad := by
    have hne := classes_disjoint.2.2
    simp only [List.mem_append] at hne
    exact ⟨(hne kind (by tauto)).2, (hne kind' (by tauto)).2⟩
  have hsame : lexeme' = lexeme ∧ kind' = kind := by
    rcases hk with ⟨hk, hk'⟩ | ⟨hk, hk'⟩ | ⟨hk, hk'⟩
    · obtain rfl := (h.word hk).unique (h'.word hk') hl hless
      have hr := h.reserved hk
      have hr' := h'.reserved hk'
      split at hr
      · rename_i hm
        rw [if_pos hm] at hr'
        have := kind_unique _ (List.mem_append_left _ hr') _ (List.mem_append_left _ hr) rfl
        exact ⟨rfl, congrArg Prod.snd this⟩
      · rename_i hm
        rw [if_neg hm] at hr'
        exact ⟨rfl, hr'.trans hr.symm⟩
    · obtain ⟨hn, hf⟩ := h.number hk
      obtain ⟨hn', hf'⟩ := h'.number hk'
      obtain rfl := hn.unique hn' hl hless
      refine ⟨rfl, ?_⟩
      rw [← hf] at hf'
      simp only [numberKinds, List.mem_cons, List.not_mem_nil, or_false] at hk hk'
      rcases hk with rfl | rfl <;> rcases hk' with rfl | rfl <;> simp at hf' ⊢
    · obtain ⟨hs, hm⟩ := h.symbol hk
      obtain ⟨hs', hm'⟩ := h'.symbol hk'
      obtain rfl := hs.unique hs' hl hless
      have := kind_unique _ (List.mem_append_right _ hm') _ (List.mem_append_right _ hm) rfl
      exact ⟨rfl, congrArg Prod.snd this⟩
  obtain ⟨rfl, rfl⟩ := hsame
  exact ⟨rfl, rfl, (h'.covered (.inl hne.2)).trans (h.covered (.inl hne.1)).symm⟩

theorem not_startsWith {mark : Bytes} (hless : less <+: text) (h : ¬text.startsWith mark = true) :
    ¬less.startsWith mark = true := by
  intro hm
  exact h (List.isPrefixOf_iff_prefix.2 ((List.isPrefixOf_iff_prefix.1 hm).trans hless))

theorem frontString_less {rest : Bytes} (h : frontString (34 :: text) = .token kind lexeme width)
    (hk : kind ≠ .bad) (hc : lexeme <+: 34 :: rest) :
    front 34 (34 :: rest) = .token kind lexeme width := by
  have hm := munch_string h
  obtain ⟨_, _, _, hf, -, hclass⟩ := frontString_fine text
  cases h.symm.trans hf
  have hkind : kind = .string := by
    simp only [frontString, Front.taken, Front.token.injEq] at h
    obtain ⟨rfl, -⟩ := h
    split at hk
    · rw [if_pos ‹_›]
    · exact absurd rfl hk
  rw [hkind] at hclass hm ⊢
  obtain ⟨after, he⟩ := hc
  rw [← he, hm.covered (.inl (by decide))]
  exact front_string hclass after

theorem frontSymbol_less (h : frontSymbol b text = .token kind lexeme width) (hk : kind ≠ .bad)
    (hc : lexeme <+: less) : kind ∈ symbolKinds ∧ ∃ kind' lexeme' width',
      frontSymbol b less = .token kind' lexeme' width' ∧ kind' ∈ symbolKinds := by
  unfold frontSymbol at h
  split at h <;> cases h
  · rename_i hf
    have hm := List.mem_of_find?_eq_some hf
    refine ⟨List.mem_map_of_mem hm, ?_⟩
    unfold frontSymbol
    split
    · rename_i hf'
      exact ⟨_, _, _, rfl, List.mem_map_of_mem (List.mem_of_find?_eq_some hf')⟩
    · rename_i hnone
      exact absurd (List.isPrefixOf_iff_prefix.2 hc) (List.find?_eq_none.1 hnone _ hm)
  · exact absurd rfl hk

/-- A token is the same when less text follows it. -/
theorem front_less {rest : Bytes} (hl : b :: rest <+: b :: text)
    (h : front b (b :: text) = .token kind lexeme width) (hk : kind ≠ .bad)
    (hc : lexeme <+: b :: rest) : front b (b :: rest) = .token kind lexeme width := by
  have hm := front_munch h
  have hsame : ∀ kind' lexeme' width', front b (b :: rest) = .token kind' lexeme' width' →
      (kind ∈ wordKinds ∧ kind' ∈ wordKinds ∨ kind ∈ numberKinds ∧ kind' ∈ numberKinds ∨
        kind ∈ symbolKinds ∧ kind' ∈ symbolKinds) →
      front b (b :: rest) = .token kind lexeme width := by
    intro kind' lexeme' width' hf hclass
    obtain ⟨rfl, rfl, rfl⟩ := hm.same (front_munch hf) hc hl hclass
    exact hf
  unfold front at h
  split at h
  · cases h
  rename_i hblank
  split at h
  · cases h
  rename_i hline
  split at h
  · unfold frontComment at h
    split at h <;> cases h
    exact absurd rfl hk
  rename_i hblock
  have hline' := not_startsWith hl hline
  have hblock' := not_startsWith hl hblock
  split at h
  · rename_i hb
    cases h
    exact hsame _ _ _ (front_name hb rest) (.inl ⟨wordKind_mem _, wordKind_mem _⟩)
  rename_i hword
  split at h
  · rename_i hb
    obtain ⟨kind', lexeme', width', hf, -⟩ := @frontNumber_fine b rest hb
    exact hsame _ _ _ ((front_digit hb rest).trans hf)
      (.inr (.inl ⟨frontNumber_kind h, frontNumber_kind hf⟩))
  rename_i hdigit
  have hfront : front b (b :: rest) =
      if b = 34 then frontString (b :: rest) else frontSymbol b (b :: rest) := by
    rw [front, if_neg hblank, if_neg hline', if_neg hblock', if_neg hword, if_neg hdigit]
  split at h
  · subst b
    exact frontString_less h hk hc
  · rename_i hquote
    rw [if_neg hquote] at hfront
    obtain ⟨hkind, kind', lexeme', width', hf, hkind'⟩ := frontSymbol_less h hk hc
    exact hsame _ _ _ (hfront.trans hf) (.inr (.inr ⟨hkind, hkind'⟩))

theorem Gap.before {gap rest : Bytes} (h : Gap gap rest) (hh : less.head? = rest.head?) :
    Gap gap less := by
  induction h with
  | nil => exact .nil
  | blank hb _ ih => exact .blank hb (ih hh)
  | @line text gap rest ht he _ ih =>
    refine .line ht ?_ (ih hh)
    rwa [List.head?_append, hh, ← List.head?_append]
  | block hc _ ih => exact .block hc (ih hh)

end Less

section Moved

def moved (distance : Int) (t : Token) : Token :=
  { t with span := ⟨t.span.start + distance, t.span.stop + distance⟩ }

theorem scanFrom_moved (bound offset distance : Nat) (text : Bytes) :
    scanFrom bound (offset + distance) text =
      (scanFrom bound offset text).map (moved distance) := by
  induction bound generalizing offset text with
  | zero => simp [scanFrom, moved]
  | succ bound ih =>
    cases text with
    | nil => simp [scanFrom, moved]
    | cons b rest =>
      simp only [scanFrom]
      cases front b (b :: rest) with
      | gap width =>
        simp only
        rw [Nat.add_right_comm, ih]
      | token kind lexeme width =>
        simp only [List.map_cons]
        rw [Nat.add_right_comm, ih]
        simp only [moved, List.cons.injEq, Token.mk.injEq, Span.mk.injEq, and_true, true_and]
        omega

theorem scanAt_moved (offset : Nat) (text : Bytes) :
    scanAt offset text = (scan text).map (moved offset) := by
  rw [scanAt, scan, ← scanFrom_moved, Nat.zero_add]

end Moved

section Segment

variable {offset : Nat} {t : Token} {tokens own after : List Token}

theorem exists_token (h : scanAt offset text = t :: tokens) (hk : t.kind ≠ .endOfFile) :
    ∃ gap b covered rest, text = gap ++ (b :: covered ++ rest) ∧ Gap gap (b :: covered ++ rest) ∧
      front b (b :: covered ++ rest) = .token t.kind t.lexeme (b :: covered).length ∧
      t.lexeme = lexemeOf t.kind (b :: covered) ∧
      t.span = ⟨(offset + gap.length : Nat), (offset + gap.length + (b :: covered).length : Nat)⟩ ∧
      scanAt (offset + gap.length + (b :: covered).length) rest = tokens := by
  obtain ⟨gap, rest, rfl, hg, rfl | ⟨b, kind, lexeme, width, hb, hf⟩⟩ := exists_gap text
  · rw [scanAt_gap hg, scanAt_nil] at h
    cases h
    exact absurd rfl hk
  · obtain ⟨tail, rfl⟩ := List.head?_eq_some_iff.1 hb
    obtain ⟨hw, hle, hl⟩ : Front.Covers (b :: tail) (.token kind lexeme width) :=
      hf ▸ front_covers b tail
    have hlen := List.length_take_of_le hle
    have htake := List.take_append_drop width (b :: tail)
    generalize (b :: tail).take width = covered at hlen htake hl
    generalize (b :: tail).drop width = rest at htake
    rw [← htake] at hf hg h ⊢
    subst hlen
    rw [scanAt_gap hg, scanAt_of_token (by rw [htake]; rfl) hf] at h
    cases h
    cases covered with
    | nil => cases hw
    | cons c covered =>
      obtain rfl : c = b := (List.cons.inj htake).1
      exact ⟨gap, c, covered, rest, rfl, hg, hf, hl, rfl, rfl⟩

theorem scanAt_take (h : scanAt offset text = own ++ after)
    (hfine : ∀ t ∈ own, t.kind ≠ .bad ∧ t.kind ≠ .endOfFile) :
    ∃ width ≤ text.length,
      (own.getLast?.map fun t ↦ t.span.stop).getD (offset : Int) = (offset + width : Nat) ∧
      scanAt offset (text.take width) =
        own ++ [⟨.endOfFile, [], (offset + width : Nat), (offset + width : Nat)⟩] := by
  induction own generalizing text offset with
  | nil => exact ⟨0, Nat.zero_le _, rfl, by rw [List.take_zero, scanAt_nil]; rfl⟩
  | cons t own ih =>
    obtain ⟨ht, hown⟩ := List.forall_mem_cons.1 hfine
    obtain ⟨gap, b, covered, rest, rfl, hg, hf, hl, hspan, hrest⟩ := exists_token h ht.2
    obtain ⟨width, hw, hlast, hs⟩ := ih hrest hown
    rw [lexemeOf_of_ne ht.1] at hl
    have hless : b :: covered ++ rest.take width <+: b :: covered ++ rest :=
      (List.prefix_append_right_inj _).2 (List.take_prefix _ _)
    have hf' := front_less hless hf ht.1 (hl ▸ List.prefix_append _ _)
    have hg' : Gap gap (b :: covered ++ rest.take width) := hg.before rfl
    have htake : (gap ++ (b :: covered ++ rest)).take
        (gap.length + ((b :: covered).length + width)) =
          gap ++ (b :: covered ++ rest.take width) := by
      rw [List.take_length_add_append, List.take_length_add_append]
    have hstop : offset + (gap.length + ((b :: covered).length + width)) =
        offset + gap.length + (b :: covered).length + width := by omega
    refine ⟨gap.length + ((b :: covered).length + width), ?_, ?_, ?_⟩
    · simp only [List.length_append]
      omega
    · rw [hstop]
      rw [List.getLast?_cons, Option.map_some, Option.getD_some]
      cases hl : own.getLast? with
      | none =>
        rw [hl] at hlast
        simpa [hspan] using hlast
      | some last =>
        rw [hl] at hlast
        simpa using hlast
    · rw [htake, scanAt_gap hg', scanAt_of_token rfl hf', hs, hstop, List.cons_append]
      simp only [← hspan]

theorem Closed.of_suffix (h : Closed tokens) (hs : t :: rest <:+ tokens) : Closed (t :: rest) := by
  obtain ⟨before, last, rfl, hl, hfine⟩ := h
  obtain ⟨front, hs⟩ := hs
  obtain ⟨init, final, he⟩ : ∃ init final, t :: rest = init ++ [final] :=
    ⟨_, _, (List.dropLast_concat_getLast (List.cons_ne_nil t rest)).symm⟩
  rw [he, ← List.append_assoc] at hs
  obtain ⟨rfl, hf⟩ := List.append_inj' hs rfl
  obtain rfl := List.singleton_inj.1 hf
  exact ⟨init, final, he, hl, fun s hs ↦ hfine s (List.mem_append_right _ hs)⟩

theorem Closed.kind_ne {before : List Token} (h : Closed (before ++ t :: tokens)) :
    ∀ s ∈ before, s.kind ≠ .endOfFile := by
  obtain ⟨all, last, he, -, hfine⟩ := h
  have hd := congrArg List.dropLast he
  rw [List.dropLast_concat, List.dropLast_append_of_ne_nil (List.cons_ne_nil _ _)] at hd
  intro s hs
  exact (hfine s (hd ▸ List.mem_append_left _ hs)).1

theorem scanAt_from {before : List Token} (h : scanAt offset text = before ++ t :: tokens)
    (hk : ∀ s ∈ before, s.kind ≠ .endOfFile) (ht : t.kind ≠ .endOfFile) :
    ∃ pre rest, text = pre ++ rest ∧ t.span.start = (offset + pre.length : Nat) ∧
      scanAt (offset + pre.length) rest = t :: tokens := by
  induction before generalizing text offset with
  | nil =>
    obtain ⟨gap, b, covered, rest, rfl, hg, -, -, hspan, -⟩ := exists_token h ht
    rw [scanAt_gap hg] at h
    exact ⟨gap, _, rfl, by rw [hspan], h⟩
  | cons s before ih =>
    obtain ⟨hs, hbefore⟩ := List.forall_mem_cons.1 hk
    obtain ⟨gap, b, covered, rest, rfl, -, -, -, -, hrest⟩ := exists_token h hs
    obtain ⟨pre, rest, rfl, hstart, htokens⟩ := ih hrest hbefore
    have hlen : offset + (gap ++ b :: covered ++ pre).length =
        offset + gap.length + (b :: covered).length + pre.length := by
      simp only [List.length_append]
      omega
    refine ⟨gap ++ b :: covered ++ pre, rest, by simp, ?_, ?_⟩
    · rw [hlen, hstart]
    · rw [hlen, htokens]

/-- The piece of a file from the start of a token to the end of a later one has the tokens that
stand there in the file. -/
theorem scan_slice {f : File} {before : List Token} (hscan : scan f.input = before ++ own ++ after)
    (hfine : ∀ t ∈ own, t.kind ≠ .bad ∧ t.kind ≠ .endOfFile) {first last : Token}
    (hfirst : own.head? = some first) (hlast : own.getLast? = some last) :
    (scan (f.slice ⟨first.span.start, last.span.stop⟩)).map (moved first.span.start) =
      own ++ [⟨.endOfFile, [], last.span.stop, last.span.stop⟩] := by
  obtain ⟨others, rfl⟩ := List.head?_eq_some_iff.1 hfirst
  rw [List.append_assoc, List.cons_append] at hscan
  have hkinds : ∀ s ∈ before, s.kind ≠ .endOfFile :=
    Closed.kind_ne (hscan ▸ scan_closed f.input)
  have hscan : scanAt 0 f.input = before ++ first :: (others ++ after) := hscan
  obtain ⟨pre, rest, he, hstart, htokens⟩ :=
    scanAt_from hscan hkinds (hfine first List.mem_cons_self).2
  rw [Nat.zero_add] at hstart htokens
  rw [← List.cons_append] at htokens
  obtain ⟨width, hw, hstop, hs⟩ := scanAt_take htokens hfine
  rw [hlast] at hstop
  have hinput : f.input = pre ++ (rest.take width ++ rest.drop width) := by
    rw [List.take_append_drop, he]
  have hslice := Token.slice_between hinput
  rw [List.length_take_of_le hw] at hslice
  rw [hstart, show last.span.stop = (pre.length + width : Nat) from hstop, hslice, ← scanAt_moved,
    hs]

end Segment

end PZero.Token
