import PZero.Proofs.Surface.Lexemes
import PZero.Proofs.Surface.Nodes
import PZero.Surface.Parse

namespace PZero.Surface

open Reading
open Token (fixed Closed InClass)

def Reader.tokens (r : Reader) : List Token := r.current :: r.ahead

def Reader.words (r : Reader) : List Word := (r.current :: r.ahead).map Token.word

def Reader.Ready (r : Reader) : Prop := Closed r.tokens

theorem Reader.words_cons (r : Reader) : r.words = r.current.word :: r.ahead.map Token.word := rfl

theorem advance_eq (r : Reader) : advance r = match r.ahead with
    | [] => (r.current, r)
    | next :: ahead =>
      (r.current, { r with previous := r.current, current := next, ahead := ahead }) := rfl

theorem report_snd (problem : ParseProblem) (r : Reader) :
    (report problem r).2 = if r.failed then r else
      { r with failed := true, errors := r.errors ++ [⟨r.current.span,
        if r.current.kind = .bad then .invalidToken r.current.lexeme else problem⟩] } := rfl

namespace Reader.Ready

variable {r : Reader}

theorem ahead (h : r.Ready) (hk : r.current.kind ≠ .endOfFile) :
    ∃ next ahead, r.ahead = next :: ahead ∧ Closed (next :: ahead) := by
  obtain ⟨before, last, he, hl, hall⟩ := h
  cases before with
  | nil =>
    obtain ⟨hc, -⟩ := List.cons.inj he
    rw [hc] at hk
    exact absurd (congrArg Prod.fst hl) hk
  | cons t before =>
    obtain ⟨-, hr⟩ := List.cons.inj he
    have hc : Closed r.ahead :=
      ⟨before, last, hr, hl, fun t ht ↦ hall t (List.mem_cons_of_mem _ ht)⟩
    cases hahead : r.ahead with
    | nil => simp [hahead] at hr
    | cons next ahead => exact ⟨next, ahead, rfl, hahead ▸ hc⟩

theorem inClass (h : r.Ready) : InClass r.current.lexeme r.current.kind := by
  obtain ⟨before, last, he, hl, hall⟩ := h
  cases before with
  | nil =>
    obtain ⟨hc, -⟩ := List.cons.inj he
    obtain ⟨hk, ht⟩ := Prod.mk.inj hl
    rw [hc, hk, ht]
    rfl
  | cons t before =>
    obtain ⟨hc, -⟩ := List.cons.inj he
    rw [hc]
    exact (hall t List.mem_cons_self).2

theorem words_end (h : r.Ready) (hk : r.current.kind = .endOfFile) :
    r.words = [(.endOfFile, [])] := by
  obtain ⟨before, last, he, hl, hall⟩ := h
  cases before with
  | nil => exact (congrArg (List.map Token.word) he).trans (congrArg (· :: []) hl)
  | cons t before =>
    obtain ⟨hc, -⟩ := List.cons.inj he
    exact absurd (hc ▸ hk) (hall t List.mem_cons_self).1

end Reader.Ready

/-- Reading relates the reader before with the result and the reader behind, unless the declaration
has failed before or fails now. -/
def Reading.Ensures {α : Type} (m : Reading α) (R : Reader → α → Reader → Prop) : Prop :=
  ∀ (r : Reader) (a : α) (r' : Reader), m r = (a, r') → r.Ready →
    r'.Ready ∧ r.errors <+: r'.errors ∧
      (r.failed = false → r'.errors = r.errors → r'.failed = false ∧ R r a r')

namespace Reading.Ensures

variable {α β : Type} {m m' : Reading α} {P R : Reader → α → Reader → Prop}

theorem pure {a : α} (h : ∀ r, R r a r) : Ensures (pure a) R := by
  intro r b r' hr hs
  cases hr
  exact ⟨hs, List.prefix_rfl, fun hok _ ↦ ⟨hok, h r⟩⟩

theorem bind {f : α → Reading β} {S : Reader → β → Reader → Prop} (h : Ensures m P)
    (hf : ∀ a, Ensures (f a) fun r₁ b r₂ ↦ ∀ r, P r a r₁ → S r b r₂) : Ensures (m >>= f) S := by
  intro r b r' hr hs
  rcases hm : m r with ⟨a, r₁⟩
  have hr' : f a r₁ = (b, r') := by
    rw [← hr]
    simp only [Bind.bind, StateT.bind, hm]
  obtain ⟨hs₁, hp₁, he₁⟩ := h _ _ _ hm hs
  obtain ⟨hs', hp', he'⟩ := hf a _ _ _ hr' hs₁
  refine ⟨hs', hp₁.trans hp', fun hok he ↦ ?_⟩
  -- what was told in the first part would still be there
  have hnone : r₁.errors = r.errors :=
    (hp₁.eq_of_length_le (he ▸ hp'.length_le)).symm
  obtain ⟨hok₁, hP⟩ := he₁ hok hnone
  obtain ⟨hok', hS⟩ := he' hok₁ (he.trans hnone.symm)
  exact ⟨hok', hS r hP⟩

theorem mono (h : Ensures m P) (hPR : ∀ r a r', P r a r' → R r a r') : Ensures m R := by
  intro r a r' hr hs
  obtain ⟨hs', hp, he⟩ := h _ _ _ hr hs
  refine ⟨hs', hp, fun hok hn ↦ ?_⟩
  obtain ⟨hok', hP⟩ := he hok hn
  exact ⟨hok', hPR r a r' hP⟩

theorem ite {c : Prop} [Decidable c] (h : c → Ensures m R) (h' : ¬c → Ensures m' R) :
    Ensures (if c then m else m') R := by
  split
  · exact h ‹_›
  · exact h' ‹_›

theorem ite_bind {c : Prop} [Decidable c] {f : α → Reading β} {S : Reader → β → Reader → Prop}
    (h : c → Ensures m P) (h' : ¬c → Ensures m' P)
    (hf : ∀ a, Ensures (f a) fun r₁ b r₂ ↦ ∀ r, P r a r₁ → S r b r₂) :
    Ensures (if c then m >>= f else m' >>= f) S :=
  .ite (fun hc ↦ (h hc).bind hf) fun hc ↦ (h' hc).bind hf

theorem discard (h : Ensures m P) : Ensures (discard m) fun r _ r' ↦ ∃ a, P r a r' :=
  h.bind fun a ↦ pure fun _ _ hP ↦ ⟨a, hP⟩

end Reading.Ensures

section Laying

def Took (r : Reader) (ts : List Token) (r' : Reader) : Prop :=
  r.tokens = ts ++ r'.tokens ∧ r'.previous = ts.getLast?.getD r.previous

/-- The tokens that were taken have some words, and nodes are placed on them in sequence. -/
def Lays (r : Reader) (words : List Word) (nodes : List Node) (r' : Reader) : Prop :=
  ∃ ts, Took r ts r' ∧ ts.map Token.word = words ∧ (InOrder ts → Node.AllPlaced nodes ts)

/-- A span goes from the first token that was taken to the last. -/
def Covers (r : Reader) (words : List Word) (nodes : List Node) (span : Span) (r' : Reader) :
    Prop :=
  ∃ ts, Took r ts r' ∧ ts.map Token.word = words ∧
    (InOrder ts → Extends span ts ∧ Node.AllPlaced nodes ts)

variable {r r₁ r₂ r₃ : Reader} {w w₁ w₂ : List Word} {p p₁ p₂ : List Node} {s s₁ s₂ : Span}
  {ts us : List Token}

theorem Took.trans (h : Took r ts r₁) (h' : Took r₁ us r₂) : Took r (ts ++ us) r₂ := by
  refine ⟨by rw [h.1, h'.1, List.append_assoc], ?_⟩
  rw [h'.2, h.2, List.getLast?_append]
  cases us.getLast? <;> rfl

theorem Lays.refl (r : Reader) : Lays r [] [] r := ⟨[], ⟨rfl, rfl⟩, rfl, fun _ ↦ trivial⟩

theorem Lays.trans (h : Lays r w p r₁) (h' : Lays r₁ w₁ p₁ r₂) :
    Lays r (w ++ w₁) (p ++ p₁) r₂ := by
  obtain ⟨ts, ht, rfl, hp⟩ := h
  obtain ⟨us, hu, rfl, hp₁⟩ := h'
  exact ⟨ts ++ us, ht.trans hu, List.map_append, fun ho ↦ (hp ho.left).append (hp₁ ho.right)⟩

theorem Covers.lays (h : Covers r w p s r₁) : Lays r w p r₁ := by
  obtain ⟨ts, ht, hw, hp⟩ := h
  exact ⟨ts, ht, hw, fun ho ↦ (hp ho).2⟩

theorem Covers.through (h : Covers r w₁ p₁ s₁ r₁) (hm : Lays r₁ w p r₂)
    (h' : Covers r₂ w₂ p₂ s₂ r₃) :
    Covers r (w₁ ++ (w ++ w₂)) (p₁ ++ (p ++ p₂)) (s₁.join s₂) r₃ := by
  obtain ⟨ts, ht, rfl, hp₁⟩ := h
  obtain ⟨mid, hmid, rfl, hp⟩ := hm
  obtain ⟨us, hu, rfl, hp₂⟩ := h'
  refine ⟨ts ++ (mid ++ us), ht.trans (hmid.trans hu), by rw [List.map_append, List.map_append],
    fun ho ↦ ⟨?_, ?_⟩⟩
  · exact (hp₁ ho.left).1.join (hp₂ ho.right.right).1 ho
  · exact (hp₁ ho.left).2.append ((hp ho.right.left).append (hp₂ ho.right.right).2)

theorem Covers.join (h : Covers r w₁ p₁ s₁ r₁) (h' : Covers r₁ w₂ p₂ s₂ r₂) :
    Covers r (w₁ ++ w₂) (p₁ ++ p₂) (s₁.join s₂) r₂ :=
  h.through (Lays.refl r₁) h'

theorem Covers.toPrevious (h : Covers r w₁ p₁ s₁ r₁) (h' : Lays r₁ w p r₂) (hw : w ≠ []) :
    Covers r (w₁ ++ w) (p₁ ++ p) (s₁.join r₂.previous.span) r₂ := by
  obtain ⟨ts, ht, rfl, hp₁⟩ := h
  obtain ⟨us, hu, rfl, hp⟩ := h'
  have hne : us ≠ [] := by
    rintro rfl
    exact hw rfl
  obtain ⟨init, last, rfl⟩ : ∃ init last, us = init ++ [last] :=
    ⟨_, _, (List.dropLast_concat_getLast hne).symm⟩
  obtain hprevious : r₂.previous = last := by
    rw [hu.2]
    simp
  refine ⟨_, ht.trans hu, List.map_append, fun ho ↦ ⟨?_, (hp₁ ho.left).2.append (hp ho.right)⟩⟩
  rw [hprevious]
  exact (hp₁ ho.left).1.join (extends_token last) ho

theorem Covers.node (h : Covers r w p s r₁) : Covers r w [.mk s w p] s r₁ := by
  obtain ⟨ts, ht, rfl, hp⟩ := h
  refine ⟨ts, ht, rfl, fun ho ↦ ⟨(hp ho).1, ?_⟩⟩
  exact Node.Placed.singleton ⟨rfl, hp ho⟩

theorem Lays.words (h : Lays r w p r₁) : r.words = w ++ r₁.words := by
  obtain ⟨ts, ⟨ht, -⟩, rfl, -⟩ := h
  exact (congrArg (List.map Token.word) ht).trans List.map_append

theorem Lays.head {v : Word} (h : Lays r (v :: w) p r₁) : r.current.word = v :=
  (List.cons.inj h.words).1

theorem Covers.ident {t : Token} (h : Covers r [t.word] [] t.span r₁) (hk : t.kind = .ident) :
    Covers r [(.ident, t.lexeme)] [Ident.node ⟨t.lexeme, t.span⟩] t.span r₁ := by
  rw [Token.word, hk] at h
  exact h.node

end Laying

section Steps

theorem ensures_get : Ensures get fun r s r' ↦ s = r ∧ r' = r ∧ r.failed = false := by
  intro r a r' hr hs
  cases hr
  exact ⟨hs, List.prefix_rfl, fun hok _ ↦ ⟨hok, rfl, rfl, hok⟩⟩

/-- The current token, of its class, was looked at. -/
def Sees (r : Reader) (tok : Token) (r' : Reader) : Prop :=
  tok = r.current ∧ r' = r ∧ InClass tok.lexeme tok.kind

theorem Sees.inClass {tok : Token} {kind : Token.Kind} (h : Sees r tok r') (hk : tok.kind = kind) :
    InClass tok.lexeme kind :=
  hk ▸ h.2.2

theorem ensures_peek : Ensures peek Sees := by
  intro r a r' hr hs
  cases hr
  exact ⟨hs, List.prefix_rfl, fun hok _ ↦ ⟨hok, rfl, rfl, hs.inClass⟩⟩

theorem ensures_advance : Ensures advance fun r t r' ↦ t = r.current ∧
    InClass t.lexeme t.kind ∧ (t.kind ≠ .endOfFile → Covers r [t.word] [] t.span r') := by
  intro r a r' hr hs
  by_cases hk : r.current.kind = .endOfFile
  · cases hl : r.ahead with
    | nil =>
      rw [advance_eq, hl] at hr
      cases hr
      exact ⟨hs, List.prefix_rfl, fun hok _ ↦ ⟨hok, rfl, hs.inClass, fun hne ↦ absurd hk hne⟩⟩
    | cons next ahead =>
      have hw := congrArg List.length (hs.words_end hk)
      simp [Reader.words, hl] at hw
  · obtain ⟨next, ahead, hl, hc⟩ := hs.ahead hk
    rw [advance_eq, hl] at hr
    cases hr
    refine ⟨hc, List.prefix_rfl, fun hok _ ↦ ⟨hok, rfl, hs.inClass, fun _ ↦ ?_⟩⟩
    refine ⟨[r.current], ⟨?_, rfl⟩, rfl, fun _ ↦ ⟨extends_token _, trivial⟩⟩
    rw [Reader.tokens, hl]
    rfl

theorem ensures_take : Ensures (discard advance) fun r _ r' ↦ r.current.kind ≠ .endOfFile →
    Covers r [r.current.word] [] r.current.span r' := by
  refine ensures_advance.discard.mono ?_
  rintro r _ r' ⟨t, rfl, -, h⟩
  exact h

theorem word_of_inClass {t : Token} {kind : Token.Kind} (hf : kind.isFixed = true)
    (hk : t.kind = kind) (hc : InClass t.lexeme t.kind) : t.word = fixed kind := by
  subst hk
  rw [Token.word, Token.eq_spelling hf hc, fixed]

theorem ensures_report (problem : ParseProblem) :
    Ensures (report problem) fun _ _ _ ↦ False := by
  intro r a r' hr hs
  obtain rfl : (report problem r).2 = r' := congrArg Prod.snd hr
  rw [report_snd]
  split
  · rename_i hf
    exact ⟨hs, List.prefix_rfl, fun hok ↦ by simp [hok] at hf⟩
  · exact ⟨hs, List.prefix_append _ _, fun _ he ↦ by simp at he⟩

theorem ensures_giveUp : Ensures giveUp fun _ _ _ ↦ False := by
  intro r a r' hr hs
  cases hr
  exact ⟨hs, List.prefix_append _ _, fun _ he ↦ by simp at he⟩

theorem ensures_tooDeep {α : Type} (a : α) {R : Reader → α → Reader → Prop} :
    Ensures (do giveUp; return a) R :=
  ensures_giveUp.bind fun _ ↦ .pure fun _ _ h ↦ h.elim

theorem ensures_tooDeep_at {α : Type} (f : Token → α) {R : Reader → α → Reader → Prop} :
    Ensures (do giveUp; return f (← peek)) R :=
  ensures_giveUp.bind fun _ ↦ ensures_peek.bind fun _ ↦ .pure fun _ _ _ _ h ↦ h.elim

theorem ensures_expect {kind : Token.Kind} (hk : kind ≠ .endOfFile) (what : Wanted) :
    Ensures (expect kind what) fun r t r' ↦ t.kind = kind ∧ InClass t.lexeme kind ∧
      Covers r [t.word] [] t.span r' := by
  refine ensures_peek.bind fun tok ↦ .ite (fun hkind ↦ ?_) fun _ ↦ ?_
  · refine ensures_advance.mono ?_
    rintro r₁ t r₂ ⟨rfl, hc, h⟩ r ⟨htok, rfl, -⟩
    subst htok
    exact ⟨hkind, hkind ▸ hc, h (hkind ▸ hk)⟩
  · exact (ensures_report _).bind fun _ ↦ ensures_peek.mono fun _ _ _ _ _ h ↦ h.elim

theorem ne_endOfFile {kind : Token.Kind} (h : kind.isFixed = true) : kind ≠ .endOfFile := by
  rintro rfl
  cases h

theorem ensures_fixed {kind : Token.Kind} (hf : kind.isFixed = true) (what : Wanted) :
    Ensures (expect kind what) fun r t r' ↦ Covers r [fixed kind] [] t.span r' := by
  refine (ensures_expect (ne_endOfFile hf) what).mono ?_
  rintro r t r' ⟨hk, hc, h⟩
  rwa [word_of_inClass hf hk (hk ▸ hc)] at h

theorem ensures_skip {kind : Token.Kind} (hf : kind.isFixed = true) (what : Wanted) :
    Ensures (discard (expect kind what)) fun r _ r' ↦ Lays r [fixed kind] [] r' := by
  refine (ensures_fixed hf what).discard.mono ?_
  rintro r _ r' ⟨_, h⟩
  exact h.lays

theorem ensures_seen {tok : Token} {kind : Token.Kind} (hne : kind ≠ .endOfFile)
    (hk : tok.kind = kind) : Ensures (discard advance) fun r₁ _ r₂ ↦
      ∀ r, Sees r tok r₁ → Covers r [(kind, tok.lexeme)] [] tok.span r₂ := by
  subst hk
  refine ensures_take.mono ?_
  rintro r₁ _ r₂ h r ⟨rfl, rfl, -⟩
  exact h hne

theorem ensures_seen_fixed {tok : Token} {kind : Token.Kind} (hf : kind.isFixed = true)
    (hk : tok.kind = kind) : Ensures (discard advance) fun r₁ _ r₂ ↦
      ∀ r, Sees r tok r₁ → Covers r [fixed kind] [] tok.span r₂ := by
  subst hk
  refine (ensures_seen (ne_endOfFile hf) rfl).mono fun r₁ _ r₂ h r hat ↦ ?_
  rw [← word_of_inClass hf rfl (hat.inClass rfl)]
  exact h r hat

theorem ensures_seen_ident {tok : Token} (hk : tok.kind = .ident) :
    Ensures (discard advance) fun r₁ _ r₂ ↦ ∀ r, Sees r tok r₁ →
      Covers r [(.ident, tok.lexeme)] [Ident.node ⟨tok.lexeme, tok.span⟩] tok.span r₂ :=
  (ensures_seen (by decide) hk).mono fun _ _ _ h r hat ↦ (h r hat).node

theorem ensures_eat {kind : Token.Kind} (hf : kind.isFixed = true) :
    Ensures (eat kind) fun r b r' ↦ (b = true → Lays r [fixed kind] [] r') ∧
      (¬b = true → r' = r ∧ r.current.kind ≠ kind) := by
  refine ensures_peek.bind fun tok ↦ .ite (fun hk ↦ ?_) fun hk ↦ .pure ?_
  · refine (ensures_seen_fixed hf hk).bind fun _ ↦ .pure ?_
    exact fun _ _ h r hat ↦ ⟨fun _ ↦ (h r hat).lays, fun h ↦ absurd rfl h⟩
  · rintro r₁ r ⟨rfl, rfl, -⟩
    exact ⟨fun h ↦ (Bool.false_ne_true h).elim, fun _ ↦ ⟨rfl, hk⟩⟩

theorem ensures_ifEat {α : Type} {kind : Token.Kind} (hf : kind.isFixed = true)
    {m m' : Reading α} {R : Reader → α → Reader → Prop}
    (h : Ensures m fun r₁ a r₂ ↦ ∀ r, Lays r [fixed kind] [] r₁ → R r a r₂)
    (h' : Ensures m' fun r a r' ↦ r.current.kind ≠ kind → R r a r') :
    Ensures (eat kind >>= fun b ↦ if b = true then m else m') R := by
  refine (ensures_eat hf).bind fun b ↦ .ite (fun hb ↦ ?_) fun hb ↦ ?_
  · exact h.mono fun r₁ a r₂ hm r hat ↦ hm r (hat.1 hb)
  · refine h'.mono ?_
    rintro r₁ a r₂ hm r ⟨-, hsame⟩
    obtain ⟨rfl, hne⟩ := hsame hb
    exact hm hne

end Steps

end PZero.Surface
