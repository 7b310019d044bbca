import PZero.Proofs.Surface.Onward

namespace PZero.Surface

open Reading

/-- Two readers with the same words ahead, to which the same problems were told. If they are
strict, they are one and the same reader. -/
structure Twins (strict : Prop) where
  one : Reader
  other : Reader
  closed : one.Closed
  words : one.words = other.words
  failed : one.failed = other.failed
  problems : one.errors.map ParseError.problem = other.errors.map ParseError.problem
  same : strict → one = other

/-- Two results with one view, the same ones if that is strict. -/
def Same {α β : Type} (strict : Prop) (view : α → β) (a a' : α) : Prop :=
  view a = view a' ∧ (strict → a = a')

variable {strict : Prop}

theorem Same.rfl {α β : Type} {view : α → β} {a : α} : Same strict view a a :=
  ⟨Eq.refl _, fun _ ↦ Eq.refl _⟩

namespace Twins

variable (t : Twins strict)

def left : Nat := t.one.ahead.length

theorem current : Same strict Token.word t.one.current t.other.current :=
  ⟨(List.cons.inj t.words).1, fun hs ↦ by rw [t.same hs]⟩

theorem kind_iff (kind : Token.Kind) :
    t.one.current.kind = kind ↔ t.other.current.kind = kind := by
  rw [show t.one.current.kind = t.other.current.kind from congrArg Prod.fst t.current.1]

def refl (r : Reader) (hr : r.Closed) : Twins strict :=
  ⟨r, r, hr, Eq.refl _, Eq.refl _, Eq.refl _, fun _ ↦ Eq.refl _⟩

def advance : Twins strict where
  one := (Reading.advance t.one).2
  other := (Reading.advance t.other).2
  closed := (advance_within t.closed).closed t.closed
  words := by
    have hahead := (List.cons.inj t.words).2
    rw [advance_eq, advance_eq]
    cases hl : t.one.ahead <;> cases hl' : t.other.ahead <;> rw [hl, hl'] at hahead
    · exact t.words
    · cases hahead
    · cases hahead
    · exact hahead
  failed := by
    rw [advance_eq, advance_eq]
    split <;> split <;> exact t.failed
  problems := by
    rw [advance_eq, advance_eq]
    split <;> split <;> exact t.problems
  same hs := by rw [t.same hs]

def report (problem : ParseProblem) : Twins strict where
  one := (Reading.report problem t.one).2
  other := (Reading.report problem t.other).2
  closed := by
    rw [report_snd]
    split <;> exact t.closed
  words := by
    rw [report_snd, report_snd, ← t.failed]
    split <;> exact t.words
  failed := by
    rw [report_snd, report_snd, ← t.failed]
    split
    · exact t.failed
    · rfl
  problems := by
    obtain ⟨hkind, hlexeme⟩ := Prod.mk.inj t.current.1
    rw [report_snd, report_snd, ← t.failed, ← hkind, ← hlexeme]
    split
    · exact t.problems
    · rw [List.map_append, List.map_append, t.problems]
      rfl
  same hs := by rw [t.same hs]

end Twins

/-- From twins, two readings give results with one view and leave twins, of which the first has a
property. -/
def Runs {α β : Type} (t : Twins strict) (view : α → β) (m m' : Reading α)
    (P : Reader → Prop) : Prop :=
  ∃ u : Twins strict, (m t.one).2 = u.one ∧ (m' t.other).2 = u.other ∧
    Same strict view (m t.one).1 (m' t.other).1 ∧ P u.one

namespace Runs

variable {α β γ δ : Type} {t : Twins strict} {view : α → γ} {view' : β → δ}
  {m m' n n' : Reading α} {f f' : α → Reading β} {P Q : Reader → Prop}

theorem mono (h : Runs t view m m' P) (hpq : ∀ r, P r → Q r) : Runs t view m m' Q := by
  obtain ⟨u, hone, hother, ha, hp⟩ := h
  exact ⟨u, hone, hother, ha, hpq _ hp⟩

theorem pure {a a' : α} (ha : Same strict view a a') (h : P t.one) :
    Runs t view (pure a) (pure a') P :=
  ⟨t, rfl, rfl, ha, h⟩

theorem bind (h : Runs t view m m' P) (hf : ∀ a a', Same strict view a a' →
    ∀ u : Twins strict, P u.one → Runs u view' (f a) (f' a') Q) :
    Runs t view' (m >>= f) (m' >>= f') Q := by
  obtain ⟨u, hone, hother, ha, hp⟩ := h
  have hb : ∀ (m : Reading α) (f : α → Reading β) r, (m >>= f) r = f (m r).1 (m r).2 :=
    fun _ _ _ ↦ rfl
  obtain ⟨v, hv⟩ := hf _ _ ha u hp
  refine ⟨v, ?_⟩
  rw [hb, hb, hone, hother]
  exact hv

theorem map {g g' : α → β} (h : Runs t view m m' P)
    (hg : ∀ a a', Same strict view a a' → Same strict view' (g a) (g' a')) :
    Runs t view' (g <$> m) (g' <$> m') P :=
  h.bind fun a a' ha _ hp ↦ pure (hg a a' ha) hp

theorem ite {c c' : Prop} [Decidable c] [Decidable c'] (hc : c ↔ c')
    (h : c → Runs t view m m' P) (h' : ¬c → Runs t view n n' P) :
    Runs t view (if c then m else n) (if c' then m' else n') P := by
  by_cases hd : c
  · rw [if_pos hd, if_pos (hc.1 hd)]
    exact h hd
  · rw [if_neg hd, if_neg fun hd' ↦ hd (hc.2 hd')]
    exact h' hd

theorem peek {f f' : Token → Reading β} (h : ∀ kind lexeme span span',
    t.one.current.kind = kind → (strict → span = span') →
      Runs t view' (f ⟨kind, lexeme, span⟩) (f' ⟨kind, lexeme, span'⟩) Q) :
    Runs t view' (peek >>= f) (peek >>= f') Q := by
  obtain ⟨hkind, hlexeme⟩ := Prod.mk.inj t.current.1
  have h := h _ t.one.current.lexeme t.one.current.span t.other.current.span rfl
    fun hs ↦ congrArg Token.span (t.current.2 hs)
  rw [show (⟨t.one.current.kind, t.one.current.lexeme, t.other.current.span⟩ : Token) =
    t.other.current by rw [hkind, hlexeme]] at h
  exact h

theorem get {f f' : Reader → Reading β} (h : Runs t view' (f t.one) (f' t.other) Q) :
    Runs t view' (get >>= f) (get >>= f') Q := h

theorem advance (hk : t.one.current.kind ≠ .endOfFile) :
    Runs t Token.word advance advance (Takes t.one) := by
  refine ⟨t.advance, rfl, rfl, ?_, advance_takes t.closed hk⟩
  rw [advance_eq, advance_eq]
  split <;> split <;> exact t.current

theorem drop (hk : t.one.current.kind ≠ .endOfFile) :
    Runs t (fun _ ↦ ()) (discard Reading.advance) (discard Reading.advance) (Takes t.one) :=
  (advance hk).map fun _ _ _ ↦ .rfl

theorem step (t : Twins strict) :
    Runs t (fun _ ↦ ()) (discard Reading.advance) (discard Reading.advance) (Within t.one) :=
  ⟨t.advance, rfl, rfl, .rfl, advance_within t.closed⟩

theorem report (problem : ParseProblem) (h : problem ≠ .tooDeep) :
    Runs t (fun _ ↦ ()) (report problem) (report problem) (Moves t.one) :=
  ⟨t.report problem, rfl, rfl, .rfl, report_moves _ h⟩

theorem expect {kind : Token.Kind} (hk : kind ≠ .endOfFile) (what : Wanted) :
    Runs t Token.word (expect kind what) (expect kind what) (Moves t.one) := by
  refine .peek fun k lexeme span span' hkind _ ↦ .ite Iff.rfl (fun hc ↦ ?_) fun _ ↦ ?_
  · exact (advance (hkind.trans hc ▸ hk)).mono fun _ h ↦ h.moves
  · exact (report (.wanted what) nofun).bind fun _ _ _ u hu ↦ ⟨u, rfl, rfl, u.current, hu⟩

theorem go (h : Runs t view m m' (Within t.one)) (hf : ∀ a a', Same strict view a a' →
    ∀ u : Twins strict, u.left ≤ t.left → Runs u view' (f a) (f' a') (Within u.one)) :
    Runs t view' (m >>= f) (m' >>= f') (Within t.one) :=
  h.bind fun a a' ha u hu ↦ (hf a a' ha u hu.length_le).mono fun _ h' ↦ hu.trans h'

theorem moves_go (h : Runs t view m m' (Moves t.one)) (hf : ∀ a a', Same strict view a a' →
    ∀ u : Twins strict, u.left ≤ t.left → Runs u view' (f a) (f' a') (Within u.one)) :
    Runs t view' (m >>= f) (m' >>= f') (Moves t.one) :=
  h.bind fun a a' ha u hu ↦ (hf a a' ha u hu.length_le).mono fun _ h' ↦ hu.trans h'

theorem ite_go {c c' : Prop} [Decidable c] [Decidable c'] (hc : c ↔ c')
    (h : c → Runs t view m m' (Within t.one)) (h' : ¬c → Runs t view n n' (Within t.one))
    (hf : ∀ a a', Same strict view a a' →
      ∀ u : Twins strict, u.left ≤ t.left → Runs u view' (f a) (f' a') (Within u.one)) :
    Runs t view' (if c then m >>= f else n >>= f) (if c' then m' >>= f' else n' >>= f')
      (Within t.one) :=
  .ite hc (fun hd ↦ (h hd).go hf) fun hd ↦ (h' hd).go hf

theorem round (h : Runs t view m m' (Moves t.one)) (hf : ∀ a a', Same strict view a a' →
    ∀ u : Twins strict, u.left < t.left ∨ u.one.failed = true →
      Runs u view' (f a) (f' a') (Within u.one)) :
    Runs t view' (m >>= f) (m' >>= f') (Within t.one) :=
  h.bind fun a a' ha u hu ↦ (hf a a' ha u hu.progress).mono fun _ h' ↦ hu.toWithin.trans h'

theorem takes_go (h : Runs t view m m' (Takes t.one)) (hf : ∀ a a', Same strict view a a' →
    ∀ u : Twins strict, u.left < t.left → Runs u view' (f a) (f' a') (Within u.one)) :
    Runs t view' (m >>= f) (m' >>= f') (Takes t.one) :=
  h.bind fun a a' ha u hu ↦ (hf a a' ha u hu.less).mono fun _ h' ↦ hu.trans h'

theorem take {f f' : Unit → Reading β} (hk : t.one.current.kind ≠ .endOfFile)
    (hf : ∀ u : Twins strict, u.left < t.left → Runs u view' (f ()) (f' ()) (Within u.one)) :
    Runs t view' (discard Reading.advance >>= f) (discard Reading.advance >>= f')
      (Takes t.one) :=
  .takes_go (.drop hk) fun _ _ _ u hu ↦ hf u hu

theorem taken {b b' : β} (hk : t.one.current.kind ≠ .endOfFile) (hb : Same strict view' b b') :
    Runs t view' (discard Reading.advance >>= fun _ ↦ Pure.pure b)
      (discard Reading.advance >>= fun _ ↦ Pure.pure b') (Takes t.one) :=
  .take hk fun _ _ ↦ .pure hb (.refl _)

theorem within (h : Runs t view m m' (Moves t.one)) : Runs t view m m' (Within t.one) :=
  h.mono fun _ h ↦ h.toWithin

theorem moves (h : Runs t view m m' (Takes t.one)) : Runs t view m m' (Moves t.one) :=
  h.mono fun _ h ↦ h.moves

theorem skip {kind : Token.Kind} (hk : kind ≠ .endOfFile) (what : Wanted) :
    Runs t (fun _ ↦ ()) (discard (Reading.expect kind what)) (discard (Reading.expect kind what))
      (Within t.one) :=
  .map (.within (.expect hk what)) fun _ _ _ ↦ .rfl

theorem eat {kind : Token.Kind} (hk : kind ≠ .endOfFile) :
    Runs t id (eat kind) (eat kind) (Within t.one) :=
  .peek fun _ _ _ _ hkind _ ↦ .ite Iff.rfl
    (fun hc ↦ (taken (hkind.trans hc ▸ hk) .rfl).moves.within) fun _ ↦ .pure .rfl (.refl _)

theorem eat_eq (r : Reader) (kind : Token.Kind) (f : Bool → Reading β) :
    (Reading.eat kind >>= f) r = (if r.current.kind = kind then
      discard Reading.advance >>= fun _ ↦ f true else f false : Reading β) r := by
  change ((if r.current.kind = kind then (do discard Reading.advance; return true)
    else return false : Reading Bool) >>= f) r = _
  split <;> rfl

theorem ifEat {f f' : Bool → Reading β} {kind : Token.Kind} (hk : kind ≠ .endOfFile)
    (h : ∀ u : Twins strict, u.left < t.left →
      Runs u view' (f true) (f' true) (Within u.one))
    (h' : Runs t view' (f false) (f' false) (Within t.one)) :
    Runs t view' (Reading.eat kind >>= f) (Reading.eat kind >>= f') (Within t.one) := by
  have htake : t.one.current.kind = kind →
      Runs t view' (discard Reading.advance >>= fun _ ↦ f true)
        (discard Reading.advance >>= fun _ ↦ f' true) (Within t.one) :=
    fun hc ↦ (take (hc ▸ hk) h).moves.within
  have hchoice := Runs.ite (t.kind_iff kind) htake fun _ ↦ h'
  unfold Runs at hchoice ⊢
  rw [eat_eq, eat_eq]
  exact hchoice

theorem reject {problem : ParseProblem} (hp : problem ≠ .tooDeep)
    (hk : t.one.current.kind ≠ .endOfFile)
    (h : ∀ u : Twins strict, Advances t.one u.one → Runs u view m m' P) :
    Runs t view (do Reading.report problem; discard Reading.advance; m)
      (do Reading.report problem; discard Reading.advance; m') P := by
  have hplace : (Reading.report problem t.one).2.current = t.one.current ∧
      (Reading.report problem t.one).2.ahead = t.one.ahead := by
    rw [report_snd]
    split <;> exact ⟨rfl, rfl⟩
  have hreport : Runs t (fun _ ↦ ()) (Reading.report problem) (Reading.report problem) fun r ↦
      Moves t.one r ∧ r.current = t.one.current ∧ r.ahead = t.one.ahead :=
    ⟨t.report problem, rfl, rfl, .rfl, report_moves _ hp, hplace⟩
  refine hreport.bind fun _ _ _ u hu ↦ ?_
  obtain ⟨hmoves, hcurrent, hahead⟩ := hu
  exact (drop (hcurrent ▸ hk)).bind fun _ _ _ v hv ↦
    h v ⟨hmoves.toWithin.trans hv.toWithin, hahead ▸ hv.less⟩

end Runs

theorem runs_same {α β : Type} {view : α → β} {m m' : Reading α} {P : Reader → Prop}
    {t : Twins True} (h : Runs t view m m' P) : m t.one = m' t.one ∧ P (m t.one).2 := by
  obtain ⟨u, hone, hother, ⟨-, ha⟩, hp⟩ := h
  rw [← t.same trivial] at hother ha
  refine ⟨Prod.ext (ha trivial) ?_, hone ▸ hp⟩
  exact hone.trans ((u.same trivial).trans hother.symm)

section Expressions

mutual

theorem readOperand_runs : ∀ b b' (t : Twins strict), 8 * t.left + 4 ≤ min b b' →
    Runs t Expr.bare (readOperand b) (readOperand b') (Moves t.one)
  | 0, _, _, hb | _ + 1, 0, _, hb => by omega
  | b + 1, b' + 1, t, hb => by
    rw [readOperand, readOperand]
    refine .peek fun kind lexeme span span' hk hspan ↦ ?_
    cases kind with
    | ident =>
      refine (Runs.take (hk.trans_ne (by decide)) fun u hu ↦
        .ifEat (by decide) (fun v hv ↦ ?_) ?_).moves
      · refine .go (readArgs_runs b b' v (by omega)).within fun args args' ha w _ ↦
          .get (.pure ⟨?_, fun hs ↦ ?_⟩ (.refl _))
        · simp only [Expr.bare, ha.1]
        · rw [ha.2 hs, hspan hs, w.same hs]
      · exact .pure ⟨rfl, fun hs ↦ by rw [hspan hs]⟩ (.refl _)
    | int | float | string | trueKw | falseKw =>
      refine (Runs.taken (hk.trans_ne (by decide)) ⟨?_, fun hs ↦ ?_⟩).moves
      · rfl
      · rw [hspan hs]
    | openParen =>
      refine (Runs.take (hk.trans_ne (by decide)) fun u hu ↦
        .go (readExpr_runs b b' u (by omega)).within fun inner inner' hi v hv ↦
        .go (.within (.expect (by decide) _)) fun close close' hc w _ ↦
        .pure ⟨?_, fun hs ↦ ?_⟩ (.refl _)).moves
      · simp only [Expr.bare, hi.1]
      · rw [hi.2 hs, hc.2 hs, hspan hs]
    | minus | bang | plus =>
      exact (readSigned_runs b b' _ _ _ t (fun hs ↦ by rw [hspan hs]) (hk.trans_ne (by decide))
        (by omega)).moves
    | _ =>
      exact .moves_go (.report _ nofun) fun _ _ _ u _ ↦
        .pure ⟨rfl, fun hs ↦ by rw [hspan hs]⟩ (.refl _)

theorem readSigned_runs : ∀ b b' op tok tok' (t : Twins strict), (strict → tok = tok') →
    t.one.current.kind ≠ .endOfFile → 8 * t.left + 3 ≤ min b b' →
      Runs t Expr.bare (readSigned b op tok) (readSigned b' op tok') (Takes t.one)
  | 0, _, _, _, _, _, _, _, hb | _ + 1, 0, _, _, _, _, _, _, hb => by omega
  | b + 1, b' + 1, op, tok, tok', t, htok, hk, hb => by
    rw [readSigned, readSigned]
    refine .take hk fun u hu ↦ .go (readOperand_runs b b' u (by omega)).within
      fun x x' hx v _ ↦ .pure ⟨?_, fun hs ↦ ?_⟩ (.refl _)
    · simp only [Expr.bare, hx.1]
    · rw [hx.2 hs, htok hs]

theorem readBinary_runs : ∀ b b' level (t : Twins strict), 8 * t.left + 5 ≤ min b b' →
    Runs t Expr.bare (readBinary b level) (readBinary b' level) (Moves t.one)
  | 0, _, _, _, hb | _ + 1, 0, _, _, hb => by omega
  | b + 1, b' + 1, level, t, hb => by
    rw [readBinary, readBinary]
    exact .moves_go (readOperand_runs b b' t (by omega)) fun left left' hl u hu ↦
      readBinaryRest_runs b b' level left left' u hl (by omega)

theorem readBinaryRest_runs : ∀ b b' level left left' (t : Twins strict),
    Same strict Expr.bare left left' → 8 * t.left + 1 ≤ min b b' →
      Runs t Expr.bare (readBinaryRest b level left) (readBinaryRest b' level left') (Within t.one)
  | 0, _, _, _, _, _, _, hb | _ + 1, 0, _, _, _, _, _, hb => by omega
  | b + 1, b' + 1, level, left, left', t, hl, hb => by
    rw [readBinaryRest, readBinaryRest]
    refine .peek fun kind lexeme span span' hk _ ↦ ?_
    dsimp only
    cases ho : binaryOp? kind with
    | none => exact .pure hl (.refl _)
    | some op =>
      refine .ite Iff.rfl (fun _ ↦ .pure hl (.refl _)) fun _ ↦ ?_
      have hne : t.one.current.kind ≠ .endOfFile := by
        intro he
        rw [← hk, he] at ho
        cases ho
      refine (Runs.take hne fun u hu ↦ .go (readBinary_runs b b' _ u (by omega)).within
        fun right right' hr v hv ↦ ?_).moves.within
      have hrest : ∀ w : Twins strict, w.left ≤ v.left → Runs w Expr.bare
          (readBinaryRest b level (.binary op left right (left.span.join right.span)))
          (readBinaryRest b' level (.binary op left' right' (left'.span.join right'.span)))
            (Within w.one) :=
        fun w hw ↦ readBinaryRest_runs b b' level _ _ w
          ⟨by simp only [Expr.bare, hl.1, hr.1], fun hs ↦ by rw [hl.2 hs, hr.2 hs]⟩ (by omega)
      refine .ite Iff.rfl (fun _ ↦ .peek fun _ _ _ _ _ _ ↦ .ite Iff.rfl (fun _ ↦ ?_) fun _ ↦ ?_)
        fun _ ↦ ?_
      · exact .go (.within (.report _ nofun)) fun _ _ _ w hw ↦ hrest w hw
      · exact hrest v (Nat.le_refl _)
      · exact hrest v (Nat.le_refl _)

theorem readExpr_runs : ∀ b b' (t : Twins strict), 8 * t.left + 6 ≤ min b b' →
    Runs t Expr.bare (readExpr b) (readExpr b') (Moves t.one)
  | 0, _, _, hb | _ + 1, 0, _, hb => by omega
  | b + 1, b' + 1, t, hb => by
    rw [readExpr, readExpr]
    refine .moves_go (readBinary_runs b b' 1 t (by omega)) fun cond cond' hc u hu ↦
      .ifEat (by decide) (fun v hv ↦ ?_) (.pure hc (.refl _))
    refine .go (readExpr_runs b b' v (by omega)).within fun then_ then_' ht v₁ h₁ ↦
      .go (.skip (by decide) _) fun _ _ _ v₂ h₂ ↦
      .go (readExpr_runs b b' v₂ (by omega)).within fun else_ else_' he v₃ _ ↦
      .pure ⟨?_, fun hs ↦ ?_⟩ (.refl _)
    · simp only [Expr.bare, hc.1, ht.1, he.1]
    · rw [hc.2 hs, ht.2 hs, he.2 hs]

theorem readArgs_runs : ∀ b b' (t : Twins strict), 8 * t.left + 8 ≤ min b b' →
    Runs t Expr.allBare (readArgs b) (readArgs b') (Moves t.one)
  | 0, _, _, hb | _ + 1, 0, _, hb => by omega
  | b + 1, b' + 1, t, hb => by
    rw [readArgs, readArgs]
    refine .peek fun kind _ _ _ hk _ ↦ .ite Iff.rfl (fun hc ↦ ?_) fun _ ↦ ?_
    · exact (Runs.taken ((hk.trans hc).trans_ne (by decide)) .rfl).moves
    · exact .moves_go (readArgList_runs b b' t (by omega)) fun args args' ha u _ ↦
        .go (.skip (by decide) _) fun _ _ _ v _ ↦ .pure ha (.refl _)

theorem readArgList_runs : ∀ b b' (t : Twins strict), 8 * t.left + 7 ≤ min b b' →
    Runs t Expr.allBare (readArgList b) (readArgList b') (Moves t.one)
  | 0, _, _, hb | _ + 1, 0, _, hb => by omega
  | b + 1, b' + 1, t, hb => by
    rw [readArgList, readArgList]
    refine .moves_go (readExpr_runs b b' t (by omega)) fun first first' hf u hu ↦
      .ifEat (by decide) (fun v hv ↦ ?_) (.pure ⟨?_, fun hs ↦ ?_⟩ (.refl _))
    · refine .go (readArgList_runs b b' v (by omega)).within fun rest rest' hr w _ ↦
        .pure ⟨?_, fun hs ↦ ?_⟩ (.refl _)
      · simp only [Expr.allBare, hf.1, hr.1]
      · rw [hf.2 hs, hr.2 hs]
    · simp only [Expr.allBare, hf.1]
    · rw [hf.2 hs]

end

end Expressions

section Statements

theorem readLocal_runs (b b' : Nat) (isConst : Bool) {t : Twins strict}
    (hk : t.one.current.kind ≠ .endOfFile) (hb : 8 * t.left ≤ min b b') :
    Runs t Stmt.bare (readLocal b isConst) (readLocal b' isConst) (Takes t.one) := by
  unfold readLocal
  refine .takes_go (.advance hk) fun tok tok' htok u hu ↦
    .go (.within (.expect (by decide) _)) fun name name' hn v hv ↦
    .go (.skip (by decide) _) fun _ _ _ w hw ↦
    .go (readExpr_runs b b' w (by omega)).within fun value value' hx x _ ↦
    .go (.within (.expect (by decide) _)) fun semi semi' hsemi _ _ ↦
    .pure ⟨?_, fun hs ↦ ?_⟩ (.refl _)
  · simp only [Stmt.bare, hx.1, show name.lexeme = name'.lexeme from congrArg Prod.snd hn.1]
  · rw [hx.2 hs, hn.2 hs, htok.2 hs, hsemi.2 hs]

theorem Runs.stmts {t : Twins strict} {ends : Token → Bool} {first first' : Reading Stmt}
    {rest rest' : Reading (List Stmt)}
    (hends : ∀ kind lexeme span span', ends ⟨kind, lexeme, span⟩ = ends ⟨kind, lexeme, span'⟩)
    (h : Runs t Stmt.bare first first' (Moves t.one))
    (hrest : ∀ u : Twins strict, u.left < t.left ∨ u.one.failed = true →
      Runs u Stmt.allBare rest rest' (Within u.one)) :
    Runs t Stmt.allBare
      (do
        let tok ← Reading.peek
        let r ← MonadState.get
        if ends tok || r.failed then return []
        else
          let s ← first
          let ss ← rest
          return s :: ss)
      (do
        let tok ← Reading.peek
        let r ← MonadState.get
        if ends tok || r.failed then return []
        else
          let s ← first'
          let ss ← rest'
          return s :: ss) (Within t.one) := by
  refine .peek fun _ _ _ _ _ _ ↦ .get (.ite ?_ (fun _ ↦ .pure .rfl (.refl _)) fun _ ↦ ?_)
  · rw [hends, t.failed]
  · refine .round h fun s s' hs u hu ↦ .go (hrest u hu) fun ss ss' hss v _ ↦
      .pure ⟨?_, fun h ↦ ?_⟩ (.refl _)
    · simp only [Stmt.allBare, hs.1, hss.1]
    · rw [hs.2 h, hss.2 h]

theorem runs_failed {t : Twins strict} {read : Nat → Reading (List Stmt)}
    (h : ∀ {r : Reader}, r.failed = true → ∀ b, read (b + 1) r = ([], r)) (hf : t.one.failed = true)
    {b b' : Nat}
    (hb : 1 ≤ min b b') :
    Runs t Stmt.allBare (read b) (read b') (Within t.one) := by
  obtain ⟨b, rfl⟩ := Nat.exists_eq_add_of_le' (show 1 ≤ b by omega)
  obtain ⟨b', rfl⟩ := Nat.exists_eq_add_of_le' (show 1 ≤ b' by omega)
  unfold Runs
  rw [h hf, h (t.failed ▸ hf)]
  exact ⟨t, rfl, rfl, .rfl, .refl _⟩

theorem readBlock_failed {r : Reader} (hf : r.failed = true) (bound : Nat) :
    readBlock (bound + 1) r = ([], r) := by
  have he : readBlock (bound + 1) r = (if r.current.kind = .closeBrace ||
      r.current.kind = .endOfFile || r.failed then return [] else (do
        let first ← readStmt bound
        let rest ← readBlock bound
        return first :: rest) : Reading (List Stmt)) r := by
    rw [readBlock]
    rfl
  rw [he, hf, Bool.or_true, if_pos rfl]
  rfl

theorem readBody_failed {r : Reader} (hf : r.failed = true) (bound : Nat) :
    readBody (bound + 1) r = ([], r) := by
  have he : readBody (bound + 1) r = (if r.current.kind = .closeBrace ||
      r.current.kind = .returnKw || r.current.kind = .endOfFile || r.failed then return [] else (do
        let first ← readStmt bound
        let rest ← readBody bound
        return first :: rest) : Reading (List Stmt)) r := by
    rw [readBody]
    rfl
  rw [he, hf, Bool.or_true, if_pos rfl]
  rfl

mutual

theorem readStmt_runs : ∀ b b' (t : Twins strict), 8 * t.left + 1 ≤ min b b' →
    Runs t Stmt.bare (readStmt b) (readStmt b') (Moves t.one)
  | 0, _, _, hb | _ + 1, 0, _, hb => by omega
  | b + 1, b' + 1, t, hb => by
    rw [readStmt, readStmt]
    refine .peek fun kind lexeme span span' hk hspan ↦ ?_
    cases kind with
    | constKw | letKw => exact (readLocal_runs b b' _ (hk.trans_ne (by decide)) (by omega)).moves
    | ifKw =>
      refine (Runs.take (hk.trans_ne (by decide)) fun u hu ↦
        .go (readExpr_runs b b' u (by omega)).within fun cond cond' hc v hv ↦
        .go (readStmt_runs b b' v (by omega)).within fun then_ then_' ht w hw ↦ ?_).moves
      refine .ifEat (by decide) (fun x hx ↦ ?_) (.pure ⟨?_, fun hs ↦ ?_⟩ (.refl _))
      · refine .go (readStmt_runs b b' x (by omega)).within fun else_ else_' he _ _ ↦
          .pure ⟨?_, fun hs ↦ ?_⟩ (.refl _)
        · simp only [Stmt.bare, hc.1, ht.1, he.1]
        · rw [hc.2 hs, ht.2 hs, he.2 hs, hspan hs]
      · simp only [Stmt.bare, hc.1, ht.1]
      · rw [hc.2 hs, ht.2 hs, hspan hs]
    | whileKw =>
      refine (Runs.take (hk.trans_ne (by decide)) fun u hu ↦
        .go (readExpr_runs b b' u (by omega)).within fun cond cond' hc v hv ↦
        .go (readStmt_runs b b' v (by omega)).within fun body body' hbody _ _ ↦
        .pure ⟨?_, fun hs ↦ ?_⟩ (.refl _)).moves
      · simp only [Stmt.bare, hc.1, hbody.1]
      · rw [hc.2 hs, hbody.2 hs, hspan hs]
    | openBrace =>
      refine (Runs.take (hk.trans_ne (by decide)) fun u hu ↦
        .go (readBlock_runs b b' u (by omega)) fun stmts stmts' hstmts v _ ↦
        .go (.within (.expect (by decide) _)) fun close close' hc _ _ ↦
        .pure ⟨?_, fun hs ↦ ?_⟩ (.refl _)).moves
      · simp only [Stmt.bare, hstmts.1]
      · rw [hstmts.2 hs, hc.2 hs, hspan hs]
    | semicolon =>
      refine (Runs.taken (hk.trans_ne (by decide)) ⟨?_, fun hs ↦ ?_⟩).moves
      · rfl
      · rw [hspan hs]
    | ident =>
      refine (Runs.take (hk.trans_ne (by decide)) fun u hu ↦ .ifEat (by decide) (fun v hv ↦ ?_)
        (.ifEat (by decide) (fun v hv ↦ ?_) ?_)).moves
      · refine .go (readArgs_runs b b' v (by omega)).within fun args args' ha w _ ↦
          .go (.within (.expect (by decide) _)) fun semi semi' hsemi _ _ ↦
          .pure ⟨?_, fun hs ↦ ?_⟩ (.refl _)
        · simp only [Stmt.bare, ha.1]
        · rw [ha.2 hs, hsemi.2 hs, hspan hs]
      · refine .go (readExpr_runs b b' v (by omega)).within fun value value' hx w _ ↦
          .go (.within (.expect (by decide) _)) fun semi semi' hsemi _ _ ↦
          .pure ⟨?_, fun hs ↦ ?_⟩ (.refl _)
        · simp only [Stmt.bare, hx.1]
        · rw [hx.2 hs, hsemi.2 hs, hspan hs]
      · exact .go (.within (.report _ nofun)) fun _ _ _ _ _ ↦
          .pure ⟨rfl, fun hs ↦ by rw [hspan hs]⟩ (.refl _)
    | _ =>
      exact .moves_go (.report _ nofun) fun _ _ _ u _ ↦ .go (.step u) fun _ _ _ _ _ ↦
        .pure ⟨rfl, fun hs ↦ by rw [hspan hs]⟩ (.refl _)

theorem readBlock_runs : ∀ b b' (t : Twins strict), 8 * t.left + 2 ≤ min b b' →
    Runs t Stmt.allBare (readBlock b) (readBlock b') (Within t.one)
  | 0, _, _, hb | _ + 1, 0, _, hb => by omega
  | b + 1, b' + 1, t, hb => by
    rw [readBlock, readBlock]
    refine .stmts (fun _ _ _ _ ↦ rfl) (readStmt_runs b b' t (by omega)) fun u hu ↦ ?_
    rcases hu with hu | hf
    · exact readBlock_runs b b' u (by omega)
    · exact runs_failed readBlock_failed hf (by omega)

end

theorem readBody_runs : ∀ b b' (t : Twins strict), 8 * t.left + 2 ≤ min b b' →
    Runs t Stmt.allBare (readBody b) (readBody b') (Within t.one)
  | 0, _, _, hb | _ + 1, 0, _, hb => by omega
  | b + 1, b' + 1, t, hb => by
    rw [readBody, readBody]
    refine .stmts (fun _ _ _ _ ↦ rfl) (readStmt_runs b b' t (by omega)) fun u hu ↦ ?_
    rcases hu with hu | hf
    · exact readBody_runs b b' u (by omega)
    · exact runs_failed readBody_failed hf (by omega)

end Statements

section Declarations

variable {t : Twins strict}

theorem readType_runs : Runs t TypeRef.name readType readType (Moves t.one) := by
  refine .peek fun kind lexeme span span' hk hspan ↦ ?_
  cases kind with
  | intType | floatType | boolType =>
    refine (Runs.taken (hk.trans_ne (by decide)) ⟨?_, fun hs ↦ ?_⟩).moves
    · rfl
    · rw [hspan hs]
  | _ =>
    exact .moves_go (.report _ nofun) fun _ _ _ _ _ ↦
      .pure ⟨rfl, fun hs ↦ by rw [hspan hs]⟩ (.refl _)

theorem readParams_runs : ∀ b b' (t : Twins strict), 8 * t.left + 1 ≤ min b b' →
    Runs t (List.map Param.bare) (readParams b) (readParams b') (Moves t.one)
  | 0, _, _, hb | _ + 1, 0, _, hb => by omega
  | b + 1, b' + 1, t, hb => by
    rw [readParams, readParams]
    refine .moves_go (.expect (by decide) _) fun name name' hn u hu ↦
      .go (.skip (by decide) _) fun _ _ _ v hv ↦
      .go readType_runs.within fun type type' ht w hw ↦ ?_
    have hbare : Param.bare ⟨⟨name.lexeme, name.span⟩, type⟩ =
        Param.bare ⟨⟨name'.lexeme, name'.span⟩, type'⟩ := by
      rw [Param.bare, Param.bare, ht.1, show name.lexeme = name'.lexeme from congrArg Prod.snd hn.1]
    refine .ifEat (by decide) (fun x hx ↦ ?_) (.pure ⟨?_, fun hs ↦ ?_⟩ (.refl _))
    · refine .go (readParams_runs b b' x (by omega)).within fun rest rest' hr _ _ ↦
        .pure ⟨?_, fun hs ↦ ?_⟩ (.refl _)
      · rw [List.map_cons, List.map_cons, hbare, hr.1]
      · rw [hn.2 hs, ht.2 hs, hr.2 hs]
    · exact congrArg (· :: []) hbare
    · rw [hn.2 hs, ht.2 hs]

theorem readNumber_runs : Runs t (Option.map Expr.bare) readNumber readNumber (Moves t.one) := by
  refine .peek fun kind lexeme span span' hk hspan ↦ ?_
  cases kind with
  | int | float =>
    refine (Runs.taken (hk.trans_ne (by decide)) ⟨?_, fun hs ↦ ?_⟩).moves
    · rfl
    · rw [hspan hs]
  | _ => exact .moves_go (.report _ nofun) fun _ _ _ _ _ ↦ .pure .rfl (.refl _)

theorem Same.built {α β : Type} {view : α → α} {view' : β → β} {f f' : α → β} {x x' : Option α}
    (h : Same strict (Option.map view) x x')
    (hf : ∀ a a', view a = view a' → view' (f a) = view' (f' a')) (hs : strict → f = f') :
    Same strict (Option.map view') (x.map f) (x'.map f') := by
  refine ⟨?_, fun hstrict ↦ by rw [h.2 hstrict, hs hstrict]⟩
  obtain ⟨h, -⟩ := h
  cases x <;> cases x'
  · rfl
  · cases h
  · cases h
  · exact congrArg some (hf _ _ (Option.some.inj h))

theorem readInitializer_runs :
    Runs t (Option.map Expr.bare) readInitializer readInitializer (Moves t.one) := by
  refine .peek fun kind lexeme span span' hk hspan ↦ ?_
  cases kind with
  | trueKw | falseKw =>
    refine (Runs.taken (hk.trans_ne (by decide)) ⟨?_, fun hs ↦ ?_⟩).moves
    · rfl
    · rw [hspan hs]
  | plus | minus =>
    refine (Runs.take (hk.trans_ne (by decide)) fun u _ ↦
      .go readNumber_runs.within fun n n' hn _ _ ↦ .pure (hn.built ?_ fun hs ↦ ?_) (.refl _)).moves
    · intro a a' ha
      simp only [Expr.bare, ha]
    · rw [hspan hs]
  | _ => exact readNumber_runs

theorem readVar_runs (isConst : Bool) (hk : t.one.current.kind ≠ .endOfFile) :
    Runs t (Option.map Decl.bare) (readVar isConst) (readVar isConst) (Takes t.one) := by
  unfold readVar
  refine .takes_go (.advance hk) fun start start' hstart _ _ ↦
    .go (.within (.expect (by decide) _)) fun name name' hn _ _ ↦
    .ite (by rw [show name.kind = name'.kind from congrArg Prod.fst hn.1])
      (fun _ ↦ .pure .rfl (.refl _)) fun _ ↦
    .go (.skip (by decide) _) fun _ _ _ _ _ ↦
    .go readInitializer_runs.within fun value value' hx _ _ ↦
    .go (.within (.expect (by decide) _)) fun semi semi' hsemi _ _ ↦
    .pure (hx.built ?_ fun hs ↦ ?_) (.refl _)
  · intro a a' ha
    rw [Decl.bare, Decl.bare, ha, show name.lexeme = name'.lexeme from congrArg Prod.snd hn.1]
  · rw [hn.2 hs, hstart.2 hs, hsemi.2 hs]

theorem readResult_runs (b b' : Nat) {type type' : Option TypeRef}
    (ht : Same strict (Option.map TypeRef.name) type type') (hb : 8 * t.left + 6 ≤ min b b') :
    Runs t (Option.map Result.bare) (readResult b type) (readResult b' type') (Within t.one) := by
  unfold readResult
  obtain ⟨hname, hsame⟩ := ht
  cases type <;> cases type'
  · exact .peek fun _ _ _ _ _ _ ↦ .ite Iff.rfl
      (fun _ ↦ .go (.within (.report _ nofun)) fun _ _ _ _ _ ↦ .pure .rfl (.refl _))
      fun _ ↦ .pure .rfl (.refl _)
  · cases hname
  · cases hname
  · refine .go (.skip (by decide) _) fun _ _ _ u hu ↦
      .go (readExpr_runs b b' u (by omega)).within fun value value' hx v _ ↦
      .go (.skip (by decide) _) fun _ _ _ _ _ ↦ .pure ⟨?_, fun hs ↦ ?_⟩ (.refl _)
    · rw [Option.map_some, Option.map_some, Result.bare, Result.bare, hx.1, Option.some.inj hname]
    · rw [hx.2 hs, Option.some.inj (hsame hs)]

theorem readFun_runs (b b' : Nat) (hk : t.one.current.kind ≠ .endOfFile)
    (hb : 8 * t.left ≤ min b b') :
    Runs t (Option.map Decl.bare) (readFun b) (readFun b') (Takes t.one) := by
  unfold readFun
  refine .takes_go (.advance hk) fun start start' hstart u hu ↦
    .go (.within (.expect (by decide) _)) fun name name' hn v hv ↦
    .ite (by rw [show name.kind = name'.kind from congrArg Prod.fst hn.1])
      (fun _ ↦ .pure .rfl (.refl _)) fun _ ↦ ?_
  refine .go (.skip (by decide) _) fun _ _ _ w hw ↦ .peek fun _ _ _ _ _ _ ↦
    .ite_go Iff.rfl (fun _ ↦ .pure .rfl (.refl _))
      (fun _ ↦ (readParams_runs b b' w (by omega)).within) fun params params' hp t₁ h₁ ↦ ?_
  refine .go (.skip (by decide) _) fun _ _ _ t₂ h₂ ↦
    .go (.eat (by decide)) fun typed typed' htyped t₃ h₃ ↦ ?_
  have htype : Runs t₃ (Option.map TypeRef.name) (some <$> readType) (some <$> readType)
      (Within t₃.one) :=
    readType_runs.within.map fun _ _ h ↦ ⟨congrArg some h.1, fun hs ↦ by rw [h.2 hs]⟩
  refine .ite_go (by rw [show typed = typed' from htyped.1]) (fun _ ↦ htype)
    (fun _ ↦ .pure .rfl (.refl _)) fun type type' ht t₄ h₄ ↦ ?_
  refine .go (.skip (by decide) _) fun _ _ _ t₅ h₅ ↦
    .go (readBody_runs b b' t₅ (by omega)) fun body body' hbody t₆ h₆ ↦
    .peek fun _ _ _ _ _ _ ↦ .get (.ite (by rw [t₆.failed]) (fun _ ↦ .pure .rfl (.refl _))
      fun _ ↦ ?_)
  refine .go (readResult_runs b b' ht (by omega)) fun result result' hr t₇ _ ↦
    .go (.within (.expect (by decide) _)) fun close close' hclose t₈ _ ↦
    .get (.ite (by rw [t₈.failed]) (fun _ ↦ .pure .rfl (.refl _)) fun _ ↦
      .pure ⟨?_, fun hs ↦ ?_⟩ (.refl _))
  · simp only [Option.map_some, Decl.bare, hp.1, hbody.1, hr.1,
      show name.lexeme = name'.lexeme from congrArg Prod.snd hn.1]
  · rw [hn.2 hs, hp.2 hs, hbody.2 hs, hr.2 hs, hstart.2 hs, hclose.2 hs]

/-- Where reading goes on behind an error. -/
def Reader.Stops (r : Reader) : Prop := r.current.kind = .endOfFile ∨ r.current.kind = .funKw

theorem skipToFun_runs : ∀ b b' (t : Twins strict), t.left + 1 ≤ min b b' →
    Runs t (fun _ ↦ ()) (skipToFun b) (skipToFun b') fun r' ↦ Within t.one r' ∧ r'.Stops
  | 0, _, _, hb | _ + 1, 0, _, hb => by omega
  | b + 1, b' + 1, t, hb => by
    rw [skipToFun, skipToFun]
    refine .peek fun kind _ _ _ hk _ ↦ .ite Iff.rfl (fun hc ↦ .pure .rfl ⟨.refl _, ?_⟩) fun hc ↦ ?_
    · rw [Reader.Stops, hk]
      simpa using hc
    · simp only [Bool.or_eq_true, decide_eq_true_eq, not_or] at hc
      refine (Runs.drop (hk.trans_ne hc.1)).bind fun _ _ _ u hu ↦
        (skipToFun_runs b b' u ?_).mono fun r' h ↦ ⟨hu.toWithin.trans h.1, h.2⟩
      have : u.left < t.left := hu.less
      omega

/-- A reader that starts on a declaration. -/
def Reader.restarted (r : Reader) : Reader := { r with failed := false }

/-- A declaration was read: a function from its first word on, and behind an error the reader has
gone on to a function or to the end of the file. -/
structure Declares (r r' : Reader) : Prop extends Advances r.restarted r' where
  behind : r.current.kind = .funKw → Within (advance r.restarted).2 r'
  stops : r'.failed = true → r'.Stops

def Twins.restarted (t : Twins strict) : Twins strict :=
  ⟨t.one.restarted, t.other.restarted, t.closed, t.words, rfl, t.problems,
    fun hs ↦ by rw [t.same hs]⟩

theorem Runs.restart {α β : Type} {view : α → β} {f f' : Unit → Reading α} {Q : Reader → Prop}
    (h : Runs t.restarted view (f ()) (f' ()) Q) :
    Runs t view (modify (fun r : Reader ↦ { r with failed := false }) >>= f)
      (modify (fun r : Reader ↦ { r with failed := false }) >>= f') Q := h

theorem readDecl_runs (b b' : Nat) (hk : t.one.current.kind ≠ .endOfFile)
    (hb : 8 * t.left ≤ min b b') :
    Runs t (Option.map Decl.bare) (readDecl b) (readDecl b') (Declares t.one) := by
  have hrest : ∀ (decl decl' : Option Decl), Same strict (Option.map Decl.bare) decl decl' →
      ∀ u : Twins strict, u.left < t.left → Runs u (Option.map Decl.bare)
        (do
          if (← get).failed then skipToFun b
          return decl)
        (do
          if (← get).failed then skipToFun b'
          return decl') fun r' ↦ Within u.one r' ∧ (r'.failed = true → r'.Stops) := by
    intro decl decl' hd u hu
    refine .get (.ite (by rw [u.failed]) (fun _ ↦ ?_) fun hf ↦ .pure hd ⟨.refl _, (absurd · hf)⟩)
    exact (skipToFun_runs b b' u (by omega)).bind fun _ _ _ v hv ↦
      .pure hd ⟨hv.1, fun _ ↦ hv.2⟩
  have hread : ∀ {m m' : Reading (Option Decl)},
      Runs t.restarted (Option.map Decl.bare) m m' (Takes t.restarted.one) →
      Runs t.restarted (Option.map Decl.bare)
        (do
          let decl ← m
          if (← get).failed then skipToFun b
          return decl)
        (do
          let decl ← m'
          if (← get).failed then skipToFun b'
          return decl) (Declares t.one) := by
    intro m m' hm
    refine hm.bind fun decl decl' hd u hu ↦ (hrest decl decl' hd u hu.less).mono fun r' h ↦ ?_
    exact ⟨hu.toAdvances.trans h.1, fun _ ↦ hu.behind.trans h.1, h.2⟩
  unfold readDecl
  refine .restart (.peek fun kind lexeme span span' hkind _ ↦ ?_)
  have hk' : t.restarted.one.current.kind ≠ .endOfFile := hk
  cases kind with
  | constKw | letKw => exact hread (readVar_runs _ hk')
  | funKw => exact hread (readFun_runs b b' hk' hb)
  | _ =>
    refine .reject nofun hk' fun u hu ↦ (hrest none none .rfl u hu.less).mono fun r' h ↦ ?_
    exact ⟨hu.trans h.1, fun hfun ↦ absurd (hkind.symm.trans hfun) (by decide), h.2⟩

theorem readProgram_runs : ∀ b b' (t : Twins strict), 8 * t.left + 1 ≤ min b b' →
    Runs t (List.map Decl.bare) (readProgram b) (readProgram b') fun r' ↦
      Onward t.one r' ∧ r'.ahead = []
  | 0, _, _, hb | _ + 1, 0, _, hb => by omega
  | b + 1, b' + 1, t, hb => by
    rw [readProgram, readProgram]
    refine .peek fun kind _ _ _ hk _ ↦ .ite Iff.rfl (fun hc ↦ .pure .rfl ⟨.refl _, ?_⟩) fun hc ↦ ?_
    · exact t.closed.ahead_eq_nil.2 (hk.trans hc)
    refine (readDecl_runs b b' (hk.trans_ne hc) (by omega)).bind fun decl decl' hd u hu ↦ ?_
    have hl : u.left < t.left := hu.less
    have ho : Onward t.one u.one := ⟨hu.taken, hu.errors⟩
    refine (readProgram_runs b b' u (by omega)).bind fun rest rest' hr v hv ↦
      .pure ⟨?_, fun hs ↦ ?_⟩ ⟨ho.trans hv.1, hv.2⟩
    · rw [List.map_append, List.map_append, hr.1, ← Option.toList_map, ← Option.toList_map, hd.1]
    · rw [hd.2 hs, hr.2 hs]

/-- From tokens with the same words the same declarations are read and the same problems reported,
wherever the words stand. -/
theorem parse_words {tokens tokens' : List Token} (hclosed : EndsOnce tokens)
    (h : tokens.map Token.word = tokens'.map Token.word) :
    (parse tokens).1.map Decl.bare = (parse tokens').1.map Decl.bare ∧
      (parse tokens).2.map ParseError.problem = (parse tokens').2.map ParseError.problem := by
  cases tokens with
  | nil =>
    obtain ⟨before, last, he, -⟩ := hclosed
    simp at he
  | cons first rest =>
    cases tokens' with
    | nil => cases h
    | cons first' rest' =>
      have hlength : (first :: rest).length = (first' :: rest').length := by
        simpa using congrArg List.length h
      let t : Twins False :=
        ⟨⟨first, first, rest, false, []⟩, ⟨first', first', rest', false, []⟩, hclosed, h, rfl, rfl,
          False.elim⟩
      have hbound : 8 * t.left + 1 ≤ 8 * (first :: rest).length + 16 := by
        change 8 * rest.length + 1 ≤ 8 * (rest.length + 1) + 16
        omega
      obtain ⟨u, hone, hother, ⟨hbare, -⟩, -⟩ := readProgram_runs _ _ t (le_min hbound hbound)
      have hproblems := u.problems
      rw [← hone, ← hother] at hproblems
      rw [parse, parse, ← hlength]
      exact ⟨hbare, hproblems⟩

end Declarations

end PZero.Surface
