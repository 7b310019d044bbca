import PZero.Proofs.Surface.Reading

namespace PZero.Surface

open Reading

def EndsOnce (tokens : List Token) : Prop :=
  ∃ before last, tokens = before ++ [last] ∧ last.kind = .endOfFile ∧
    ∀ t ∈ before, t.kind ≠ .endOfFile

def Reader.Closed (r : Reader) : Prop := EndsOnce (r.current :: r.ahead)

theorem EndsOnce.of_closed {tokens : List Token} (h : Token.Closed tokens) : EndsOnce tokens := by
  obtain ⟨before, last, he, hl, hb⟩ := h
  exact ⟨before, last, he, congrArg Prod.fst hl, fun t ht ↦ (hb t ht).1⟩

theorem EndsOnce.of_append {taken : List Token} {t : Token} {rest : List Token}
    (h : EndsOnce (taken ++ t :: rest)) : EndsOnce (t :: rest) := by
  obtain ⟨before, last, he, hl, hb⟩ := h
  rw [List.append_eq_append_iff] at he
  obtain ⟨middle, rfl, hm⟩ | ⟨middle, rfl, hm⟩ := he
  · exact ⟨middle, last, hm, hl, fun t ht ↦ hb t (List.mem_append_right _ ht)⟩
  · cases middle with
    | nil => exact ⟨[], last, hm.symm, hl, List.forall_mem_nil _⟩
    | cons _ _ => simp at hm

theorem Reader.Closed.ahead {r : Reader} (h : r.Closed) (hk : r.current.kind ≠ .endOfFile) :
    ∃ next ahead, r.ahead = next :: ahead := by
  obtain ⟨before, last, he, hl, -⟩ := h
  cases before with
  | nil =>
    obtain ⟨hc, -⟩ := List.cons.inj he
    exact absurd (hc ▸ hl) hk
  | cons first before =>
    obtain ⟨-, ha⟩ := List.cons.inj he
    cases before with
    | nil => exact ⟨_, _, ha⟩
    | cons next before => exact ⟨_, _, ha⟩

theorem Reader.Closed.ahead_eq_nil {r : Reader} (h : r.Closed) :
    r.ahead = [] ↔ r.current.kind = .endOfFile := by
  refine ⟨fun hn ↦ ?_, fun hk ↦ ?_⟩
  · by_contra hk
    obtain ⟨_, _, ha⟩ := h.ahead hk
    rw [hn] at ha
    cases ha
  · obtain ⟨before, last, he, -, hb⟩ := h
    cases before with
    | nil => exact (List.cons.inj he).2
    | cons first before =>
      exact absurd ((List.cons.inj he).1 ▸ hk) (hb first List.mem_cons_self)

/-- A reader later on: some tokens are taken, the last of them is the one before the current token,
and of the errors told in between none is that the bound was reached. -/
structure Onward (r r' : Reader) : Prop where
  taken : ∃ taken, r.current :: r.ahead = taken ++ r'.current :: r'.ahead ∧
    r'.previous = taken.getLast?.getD r.previous
  errors : ∃ more, r'.errors = r.errors ++ more ∧ ∀ e ∈ more, e.problem ≠ .tooDeep

/-- A reader later on in a declaration. One that has failed tells nothing more. In one that has not,
at most one error is told, and then it has failed: the error is at a token that is taken behind the
reader, or is the current one in the end. -/
structure Within (r r' : Reader) : Prop extends Onward r r' where
  silent : r.failed = true → r'.failed = true ∧ r'.errors = r.errors
  told : r.failed = false → r'.failed = false ∧ r'.errors = r.errors ∨
    r'.failed = true ∧ ∃ e t rest, r'.errors = r.errors ++ [e] ∧ e.place = t.span ∧
      t :: rest <:+ r.tokens ∧ r'.tokens <:+ t :: rest

/-- Something was taken. -/
structure Advances (r r' : Reader) : Prop extends Within r r' where
  less : r'.ahead.length < r.ahead.length

/-- The current token was taken before anything else. -/
structure Takes (r r' : Reader) : Prop extends Advances r r' where
  behind : Within (advance r).2 r'

/-- Something was taken, or the declaration has failed. -/
structure Moves (r r' : Reader) : Prop extends Within r r' where
  progress : r'.ahead.length < r.ahead.length ∨ r'.failed = true

variable {r r₁ r' : Reader}

theorem Onward.closed (h : Onward r r') (hr : r.Closed) : r'.Closed := by
  obtain ⟨taken, he, -⟩ := h.taken
  rw [Reader.Closed, he] at hr
  exact hr.of_append

theorem Onward.suffix (h : Onward r r') : r'.tokens <:+ r.tokens := by
  obtain ⟨taken, he, -⟩ := h.taken
  exact ⟨taken, he.symm⟩

theorem Onward.length_le (h : Onward r r') : r'.ahead.length ≤ r.ahead.length :=
  Nat.le_of_succ_le_succ h.suffix.length_le

theorem Onward.refl (r : Reader) : Onward r r :=
  ⟨⟨[], rfl, rfl⟩, ⟨[], (List.append_nil _).symm, List.forall_mem_nil _⟩⟩

theorem Onward.trans (h : Onward r r₁) (h' : Onward r₁ r') : Onward r r' := by
  obtain ⟨⟨taken, he, hp⟩, more, hm, hall⟩ := h
  obtain ⟨⟨taken', he', hp'⟩, more', hm', hall'⟩ := h'
  refine ⟨⟨taken ++ taken', ?_, ?_⟩, more ++ more', ?_, ?_⟩
  · rw [he, he', List.append_assoc]
  · rw [hp', hp, List.getLast?_append]
    cases taken'.getLast? <;> rfl
  · rw [hm', hm, List.append_assoc]
  · exact List.forall_mem_append.2 ⟨hall, hall'⟩

theorem Onward.within (h : Onward r r') (hf : r'.failed = r.failed) (he : r'.errors = r.errors) :
    Within r r' :=
  ⟨h, fun hr ↦ ⟨hf.trans hr, he⟩, fun hr ↦ .inl ⟨hf.trans hr, he⟩⟩

theorem Within.refl (r : Reader) : Within r r := (Onward.refl r).within rfl rfl

theorem Within.trans (h : Within r r₁) (h' : Within r₁ r') : Within r r' where
  toOnward := h.toOnward.trans h'.toOnward
  silent hf := by
    obtain ⟨hf₁, he⟩ := h.silent hf
    obtain ⟨hf', he'⟩ := h'.silent hf₁
    exact ⟨hf', he'.trans he⟩
  told hf := by
    rcases h.told hf with ⟨hf₁, he⟩ | ⟨hf₁, e, t, rest, he, hp, ht, hr⟩
    · rcases h'.told hf₁ with ⟨hf', he'⟩ | ⟨hf', e, t, rest, he', hp, ht, hr⟩
      · exact .inl ⟨hf', he'.trans he⟩
      · exact .inr ⟨hf', e, t, rest, by rw [he', he], hp, ht.trans h.suffix, hr⟩
    · obtain ⟨hf', he'⟩ := h'.silent hf₁
      exact .inr ⟨hf', e, t, rest, he'.trans he, hp, ht, h'.suffix.trans hr⟩

theorem Advances.trans (h : Advances r r₁) (h' : Within r₁ r') : Advances r r' :=
  ⟨h.toWithin.trans h', by have := h.less; have := h'.length_le; omega⟩

theorem Takes.trans (h : Takes r r₁) (h' : Within r₁ r') : Takes r r' :=
  ⟨h.toAdvances.trans h', h.behind.trans h'⟩

theorem Advances.moves (h : Advances r r') : Moves r r' := ⟨h.toWithin, .inl h.less⟩

theorem Moves.trans (h : Moves r r₁) (h' : Within r₁ r') : Moves r r' := by
  refine ⟨h.toWithin.trans h', ?_⟩
  rcases h.progress with hl | hf
  · exact .inl (by have := h'.length_le; omega)
  · exact .inr (h'.silent hf).1

theorem advance_takes (hr : r.Closed) (hk : r.current.kind ≠ .endOfFile) :
    Takes r (advance r).2 := by
  obtain ⟨next, ahead, ha⟩ := hr.ahead hk
  refine ⟨⟨Onward.within ⟨⟨[r.current], ?_, ?_⟩, [], ?_, List.forall_mem_nil _⟩ ?_ ?_, ?_⟩,
    .refl _⟩ <;> rw [advance_eq, ha]
  · rfl
  · rfl
  · exact (List.append_nil _).symm
  · exact Nat.lt_succ_self _

theorem advance_within (hr : r.Closed) : Within r (advance r).2 := by
  by_cases hk : r.current.kind = .endOfFile
  · rw [advance_eq, hr.ahead_eq_nil.2 hk]
    exact .refl r
  · exact (advance_takes hr hk).toWithin

theorem report_moves (r : Reader) {problem : ParseProblem} (h : problem ≠ .tooDeep) :
    Moves r (report problem r).2 := by
  rw [report_snd]
  split
  · exact ⟨.refl r, .inr ‹_›⟩
  · rename_i hf
    refine ⟨⟨⟨⟨[], rfl, rfl⟩, _, rfl, ?_⟩, fun h ↦ absurd h hf, fun _ ↦ .inr ⟨rfl, _, r.current,
      r.ahead, rfl, rfl, List.suffix_rfl, List.suffix_rfl⟩⟩, .inr rfl⟩
    refine List.forall_mem_singleton.2 ?_
    split
    · exact nofun
    · exact h

end PZero.Surface
