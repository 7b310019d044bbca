import PZero.Proofs.Surface.Faithful
import PZero.Proofs.Surface.Relexing

namespace PZero.Surface

open Reading
open Token (fixed Proper)

/-- These words are ahead, and behind them the end of the file. Nothing was wrong so far. -/
structure Reader.At (r : Reader) (ws : List Word) : Prop where
  words : r.words = ws ++ [(.endOfFile, [])]
  failed : r.failed = false
  errors : r.errors = []

/-- Reading takes the words in front of the rest and has a result. -/
def Reading.Takes {α : Type} (m : Reading α) (ws rest : List Word) (Q : α → Prop) : Prop :=
  ∀ r : Reader, r.At ws → ∃ a r', m r = (a, r') ∧ r'.At rest ∧ Q a

def nextKind (ws : List Word) : Token.Kind := (ws.head?.map Prod.fst).getD .endOfFile

@[simp] theorem nextKind_cons (w : Word) (ws : List Word) : nextKind (w :: ws) = w.1 := rfl

namespace Reading.Takes

variable {α β : Type} {m m' : Reading α} {ws mid rest : List Word} {P Q : α → Prop}

theorem pure {a : α} (h : Q a) : Takes (pure a) ws ws Q := fun r hr ↦ ⟨a, r, rfl, hr, h⟩

theorem bind {f : α → Reading β} {S : β → Prop} (h : Takes m ws mid P)
    (hf : ∀ a, P a → Takes (f a) mid rest S) : Takes (m >>= f) ws rest S := by
  intro r hr
  obtain ⟨a, r₁, hm, hr₁, ha⟩ := h r hr
  obtain ⟨b, r₂, hb, hr₂, hs⟩ := hf a ha r₁ hr₁
  refine ⟨b, r₂, ?_, hr₂, hs⟩
  rw [← hb]
  simp only [Bind.bind, StateT.bind, hm]

theorem ite_true {c : Prop} [Decidable c] (hc : c) (h : Takes m ws rest Q) :
    Takes (if c then m else m') ws rest Q := by
  rwa [if_pos hc]

theorem ite_false {c : Prop} [Decidable c] (hc : ¬c) (h : Takes m' ws rest Q) :
    Takes (if c then m else m') ws rest Q := by
  rwa [if_neg hc]

theorem ite_bind {c : Prop} [Decidable c] {f : α → Reading β} {S : β → Prop}
    (h : c → Takes m ws mid P) (h' : ¬c → Takes m' ws mid P)
    (hf : ∀ a, P a → Takes (f a) mid rest S) :
    Takes (if c then m >>= f else m' >>= f) ws rest S := by
  split
  · exact (h ‹_›).bind hf
  · exact (h' ‹_›).bind hf

theorem mono (h : Takes m ws rest P) (hPQ : ∀ a, P a → Q a) : Takes m ws rest Q := by
  intro r hr
  obtain ⟨a, r', hm, hr', ha⟩ := h r hr
  exact ⟨a, r', hm, hr', hPQ a ha⟩

theorem discard (h : Takes m ws rest P) : Takes (discard m) ws rest fun _ ↦ True :=
  h.bind fun _ _ ↦ .pure trivial

end Reading.Takes

variable {w : Word} {ws rest : List Word}

theorem takes_get : Takes get ws ws fun s ↦ s.failed = false :=
  fun r hr ↦ ⟨r, r, rfl, hr, hr.failed⟩

theorem takes_peek : Takes peek ws ws fun t ↦ t.kind = nextKind ws := by
  intro r hr
  refine ⟨_, r, rfl, hr, ?_⟩
  have hw := hr.words
  rw [Reader.words_cons] at hw
  cases ws with
  | nil => exact congrArg Prod.fst (List.cons.inj hw).1
  | cons w ws => exact congrArg Prod.fst (List.cons.inj hw).1

theorem takes_peek_word : Takes peek (w :: ws) (w :: ws) fun t ↦ t.word = w := by
  intro r hr
  refine ⟨_, r, rfl, hr, ?_⟩
  have hw := hr.words
  rw [Reader.words_cons] at hw
  exact (List.cons.inj hw).1

theorem takes_advance : Takes advance (w :: ws) ws fun t ↦ t.word = w := by
  intro r hr
  have hw := hr.words
  rw [Reader.words_cons, List.cons_append] at hw
  obtain ⟨hc, ha⟩ := List.cons.inj hw
  have hadv := advance_eq r
  cases hl : r.ahead with
  | nil => simp [hl] at ha
  | cons next ahead =>
    rw [hl] at ha hadv
    exact ⟨_, _, hadv, ⟨ha, hr.failed, hr.errors⟩, hc⟩

theorem takes_take : Takes (discard advance) (w :: ws) ws fun _ ↦ True := takes_advance.discard

theorem takes_expect {kind : Token.Kind} {text : Bytes} (what : Wanted) :
    Takes (expect kind what) ((kind, text) :: ws) ws fun t ↦ t.word = (kind, text) :=
  takes_peek.bind fun _ htok ↦ .ite_true htok takes_advance

theorem takes_skip (kind : Token.Kind) (what : Wanted) :
    Takes (discard (expect kind what)) (fixed kind :: ws) ws fun _ ↦ True :=
  (takes_expect what).discard

theorem takes_eat (kind : Token.Kind) : Takes (eat kind) (fixed kind :: ws) ws (· = true) :=
  takes_peek.bind fun _ htok ↦ .ite_true htok (takes_take.bind fun _ _ ↦ .pure rfl)

theorem takes_no_eat {kind : Token.Kind} (h : nextKind ws ≠ kind) :
    Takes (eat kind) ws ws (· = false) :=
  takes_peek.bind fun _ htok ↦ .ite_false (htok ▸ h) (.pure rfl)

theorem Expr.words_length_pos (e : Expr) : 0 < e.words.length := by
  cases e <;> simp only [Expr.words, List.length_append, List.length_cons, List.length_nil]
    <;> omega

theorem Expr.nextKind_words : ∀ (e : Expr) (rest : List Word),
    nextKind (e.words ++ rest) ≠ .closeParen
  | .conditional cond _ _ _, _ => by
    rw [words, List.append_assoc]
    exact cond.nextKind_words _
  | .binary _ left _ _, _ => by
    rw [words, List.append_assoc]
    exact left.nextKind_words _
  | .binaryUnknown _ left _ _, _ => by
    rw [words, List.append_assoc]
    exact left.nextKind_words _
  | .unary op _ _, _ => by cases op <;> exact nofun
  | .bool value _, _ => by cases value <;> exact nofun
  | .call .., _ | .ident .., _ | .paren .., _ | .int .., _ | .float .., _ | .string .., _ => nofun

abbrev EndsExpr (kind : Token.Kind) : Prop :=
  kind ≠ .openParen ∧ kind ≠ .question ∧ binaryOp? kind = none

theorem takes_stop {bound level : Nat} {left : Expr} {Q : Expr → Prop} (hb : 0 < bound)
    (hstop : ∀ op, binaryOp? (nextKind ws) = some op → op.level < level) (hq : Q left) :
    Takes (readBinaryRest bound level left) ws ws Q := by
  obtain ⟨bound, rfl⟩ := Nat.exists_eq_add_one.2 hb
  rw [readBinaryRest]
  refine takes_peek.bind fun tok htok ↦ ?_
  rw [htok]
  split
  · exact .pure hq
  · exact .ite_true (hstop _ ‹_›) (.pure hq)

/-- An expression is read as an operand. -/
def OperandRead (e : Expr) : Prop :=
  ∀ bound rest, 4 * e.words.length ≤ bound → nextKind rest ≠ .openParen →
    Takes (readOperand bound) (e.words ++ rest) rest (·.bare = e.bare)

/-- An expression is read as the left operand that `readBinaryRest` carries on with. -/
def LeftRead (e : Expr) : Prop :=
  ∀ bound level rest, 4 * e.words.length + 1 ≤ bound → level ≤ e.level →
    nextKind rest ≠ .openParen →
    (∀ op, binaryOp? (nextKind rest) = some op → op.TakesLeft e.level) →
    ∀ rest' Q, (∀ bound' e', bound ≤ bound' + e.words.length → e'.bare = e.bare →
      Takes (readBinaryRest bound' level e') rest rest' Q) →
    Takes (readBinary bound level) (e.words ++ rest) rest' Q

def WholeRead (e : Expr) : Prop :=
  ∀ bound rest, 4 * e.words.length + 2 ≤ bound → EndsExpr (nextKind rest) →
    Takes (readExpr bound) (e.words ++ rest) rest (·.bare = e.bare)

/-- An expression is read from its words wherever its level lets it stand. -/
structure Readable (e : Expr) : Prop where
  asOperand : e.level = 6 → OperandRead e
  asLeft : 1 ≤ e.level → LeftRead e
  asWhole : WholeRead e

namespace Readable

variable {e : Expr}

theorem before (h : Readable e) (kind : Token.Kind) (hk : EndsExpr kind) {bound : Nat}
    {rest : List Word} (hb : 4 * e.words.length + 2 ≤ bound) :
    Takes (readExpr bound) (e.words ++ fixed kind :: rest) (fixed kind :: rest)
      (·.bare = e.bare) :=
  h.asWhole bound _ hb hk

theorem whole_of_left (h1 : 1 ≤ e.level) (hb : LeftRead e) : WholeRead e := by
  intro bound rest hbound hend
  obtain ⟨bound, rfl⟩ := Nat.exists_eq_add_one.2 (show 0 < bound by omega)
  obtain ⟨hparen, hquestion, hop⟩ := hend
  have hnone : ∀ op, binaryOp? (nextKind rest) ≠ some op := by
    intro op h
    rw [hop] at h
    cases h
  rw [readExpr]
  refine (hb bound 1 rest (by omega) h1 hparen (fun op h ↦ absurd h (hnone op)) rest
    (·.bare = e.bare) fun bound' e' hb' he' ↦ ?_).bind fun e' he' ↦ ?_
  · exact takes_stop (by omega) (fun op h ↦ absurd h (hnone op)) he'
  · exact (takes_no_eat hquestion).bind fun b hb ↦ .ite_false (by simp [hb]) (.pure he')

theorem of_operand (hl : e.level = 6) (h : ∀ bound rest, 4 * e.words.length ≤ bound + 1 →
      nextKind rest ≠ .openParen →
      Takes (readOperand (bound + 1)) (e.words ++ rest) rest (·.bare = e.bare)) : Readable e := by
  have hpos := e.words_length_pos
  have hoperand : OperandRead e := by
    intro bound rest hb hparen
    obtain ⟨bound, rfl⟩ := Nat.exists_eq_add_one.2 (show 0 < bound by omega)
    exact h bound rest hb hparen
  have hbinary : LeftRead e := by
    intro bound level rest hb _ hparen _ rest' Q hrest
    obtain ⟨bound, rfl⟩ := Nat.exists_eq_add_one.2 (show 0 < bound by omega)
    rw [readBinary]
    exact (hoperand bound rest (by omega) hparen).bind fun e' he' ↦ hrest bound e' (by omega) he'
  exact ⟨fun _ ↦ hoperand, fun _ ↦ hbinary, whole_of_left (by omega) hbinary⟩

theorem ident (name : Bytes) (span : Span) : Readable (.ident name span) := by
  refine of_operand rfl fun bound rest _ hparen ↦ ?_
  rw [readOperand]
  refine takes_peek_word.bind fun tok htok ↦ ?_
  obtain ⟨hk, ht⟩ := Prod.mk.inj htok
  rw [hk]
  refine takes_take.bind fun _ _ ↦ (takes_no_eat hparen).bind fun b hb ↦
    .ite_false (by simp [hb]) (.pure ?_)
  simp [ht]

theorem literal (h : e matches .int .. | .float .. | .string ..) : Readable e := by
  cases e with
  | int text span | float text span | string text span =>
    refine of_operand rfl fun bound rest _ _ ↦ ?_
    rw [readOperand]
    refine takes_peek_word.bind fun tok htok ↦ ?_
    obtain ⟨hk, ht⟩ := Prod.mk.inj htok
    rw [hk]
    exact takes_take.bind fun _ _ ↦ .pure (by simp [ht])
  | _ => cases h

theorem bool (value : Bool) (span : Span) : Readable (.bool value span) := by
  refine of_operand rfl fun bound rest _ _ ↦ ?_
  rw [readOperand]
  refine takes_peek_word.bind fun tok htok ↦ ?_
  have hk : tok.kind = _ := congrArg Prod.fst htok
  rw [hk]
  cases value <;> exact takes_take.bind fun _ _ ↦ .pure rfl

theorem paren {inner : Expr} (h : Readable inner) (span : Span) : Readable (.paren inner span) := by
  refine of_operand rfl fun bound rest hb _ ↦ ?_
  simp only [Expr.words, List.length_append, List.length_cons, List.length_nil, List.cons_append,
    List.append_assoc, List.nil_append] at hb ⊢
  rw [readOperand]
  refine takes_peek_word.bind fun tok htok ↦ ?_
  rw [show tok.kind = .openParen from congrArg Prod.fst htok]
  refine takes_take.bind fun _ _ ↦ (h.before .closeParen (by decide) (by omega)).bind
    fun inner' hi ↦
    (takes_expect _).bind fun _ _ ↦ .pure ?_
  simp [hi]

theorem unary (op : UnaryOp) {operand : Expr} (h : Readable operand) (hl : operand.level = 6)
    (span : Span) : Readable (.unary op operand span) := by
  refine of_operand rfl fun bound rest hb hparen ↦ ?_
  simp only [Expr.words, List.length_cons, List.cons_append] at hb ⊢
  have hsigned : ∀ tok, Takes (readSigned bound op tok)
      ((op.kind, op.symbol) :: (operand.words ++ rest)) rest
      (·.bare = (Expr.unary op operand span).bare) := by
    intro tok
    obtain ⟨bound, rfl⟩ := Nat.exists_eq_add_one.2 (show 0 < bound by omega)
    rw [readSigned]
    refine takes_take.bind fun _ _ ↦ (h.asOperand hl bound rest (by omega) hparen).bind
      fun operand' ho ↦ .pure ?_
    simp [ho]
  rw [readOperand]
  refine takes_peek_word.bind fun tok htok ↦ ?_
  rw [show tok.kind = op.kind from congrArg Prod.fst htok]
  cases op <;> exact hsigned tok

end Readable

theorem takes_readArgList {es : List Expr} (hes : es ≠ []) (h : ∀ e ∈ es, Readable e)
    {bound : Nat} {rest : List Word} (hb : 4 * (Expr.listWords es).length + 3 ≤ bound)
    (hrest : nextKind rest = .closeParen) :
    Takes (readArgList bound) (Expr.listWords es ++ rest) rest
      (Expr.allBare · = Expr.allBare es) := by
  induction es generalizing bound with
  | nil => exact absurd rfl hes
  | cons e es ih =>
    obtain ⟨he, hes'⟩ := List.forall_mem_cons.1 h
    obtain ⟨bound, rfl⟩ := Nat.exists_eq_add_one.2 (show 0 < bound by omega)
    rw [readArgList]
    cases es with
    | nil =>
      simp only [Expr.listWords] at hb ⊢
      refine (he.asWhole bound rest (by omega) (by rw [hrest]; decide)).bind fun e' he' ↦
        (takes_no_eat (by rw [hrest]; decide)).bind fun b hb ↦ .ite_false (by simp [hb]) (.pure ?_)
      simp [he']
    | cons e₂ es =>
      simp only [Expr.listWords, List.length_append, List.length_cons, List.append_assoc,
        List.cons_append] at hb ⊢
      refine (he.before .comma (by decide) (by omega)).bind fun e' he' ↦
        (takes_eat .comma).bind fun b hb ↦ .ite_true hb ?_
      refine (ih (by simp) hes' (by omega)).bind fun es' hes' ↦ .pure ?_
      simp [he', hes']

theorem Expr.nextKind_listWords {es : List Expr} (hes : es ≠ []) (rest : List Word) :
    nextKind (Expr.listWords es ++ rest) ≠ .closeParen := by
  cases es with
  | nil => exact absurd rfl hes
  | cons e es =>
    cases es with
    | nil => exact e.nextKind_words rest
    | cons e₂ es =>
      rw [Expr.listWords, List.append_assoc]
      exact e.nextKind_words _

theorem takes_readArgs {es : List Expr} (h : ∀ e ∈ es, Readable e) {bound : Nat}
    {rest : List Word} (hb : 4 * (Expr.listWords es).length + 4 ≤ bound) :
    Takes (readArgs bound) (Expr.listWords es ++ fixed .closeParen :: rest) rest
      (Expr.allBare · = Expr.allBare es) := by
  obtain ⟨bound, rfl⟩ := Nat.exists_eq_add_one.2 (show 0 < bound by omega)
  rw [readArgs]
  refine takes_peek.bind fun tok htok ↦ ?_
  by_cases hes : es = []
  · subst hes
    exact .ite_true htok (takes_take.bind fun _ _ ↦ .pure rfl)
  · refine .ite_false (by rw [htok]; exact Expr.nextKind_listWords hes _) ?_
    exact (takes_readArgList hes h (by omega) rfl).bind fun es' hes' ↦
      (takes_skip _ _).bind fun _ _ ↦ .pure hes'

namespace Readable

theorem call (callee : Ident) {args : List Expr} (h : ∀ e ∈ args, Readable e) (span : Span) :
    Readable (.call callee args span) := by
  refine of_operand rfl fun bound rest hb _ ↦ ?_
  simp only [Expr.words, List.length_append, List.length_cons, List.length_nil, List.cons_append,
    List.append_assoc, List.nil_append] at hb ⊢
  rw [readOperand]
  refine takes_peek_word.bind fun tok htok ↦ ?_
  obtain ⟨hk, ht⟩ := Prod.mk.inj htok
  rw [hk]
  refine takes_take.bind fun _ _ ↦ (takes_eat .openParen).bind fun b hb ↦ .ite_true hb ?_
  refine (takes_readArgs h (by omega)).bind fun args' ha ↦ takes_get.bind fun _ _ ↦ .pure ?_
  simp [ht, ha]

theorem binary {op : BinaryOp} {left right : Expr} {span : Span} (hl : Readable left)
    (hr : Readable right) (hleft : op.TakesLeft left.level) (hright : op.level < right.level) :
    Readable (.binary op left right span) := by
  have h1 := op.one_le_level
  have h5 := op.level_le
  have hll := hleft.1
  have hbinary : LeftRead (.binary op left right span) := by
    intro bound level rest hb hlevel hparen hfollow rest' Q hrest
    simp only [Expr.level] at hlevel hfollow
    simp only [Expr.words, List.length_append, List.length_cons, List.append_assoc,
      List.cons_append] at hb hrest ⊢
    refine hl.asLeft (by omega) bound level _ (by omega) (hlevel.trans hll)
      (by rw [nextKind_cons]; cases op <;> decide) ?_ rest' Q ?_
    · intro op' hop'
      have hsome : binaryOp? op.kind = some op := binaryOp?_eq_some.2 rfl
      rw [nextKind_cons, hsome] at hop'
      cases hop'
      exact hleft
    intro bound₁ left' hb₁ hl'
    obtain ⟨bound₁, rfl⟩ := Nat.exists_eq_add_one.2 (show 0 < bound₁ by omega)
    rw [readBinaryRest]
    refine takes_peek.bind fun tok htok ↦ ?_
    rw [binaryOp?_eq_some.2 htok]
    refine .ite_false (by omega) (takes_take.bind fun _ _ ↦ ?_)
    refine (hr.asLeft (by omega) bound₁ (op.level + 1) rest (by omega) hright hparen ?_ rest
      (·.bare = right.bare) ?_).bind fun right' hr' ↦ ?_
    · intro op' hop'
      have := (hfollow op' hop').1
      exact ⟨by omega, fun _ ↦ by omega⟩
    · intro bound₂ right' hb₂ hr'
      refine takes_stop (by omega) (fun op' hop' ↦ ?_) hr'
      have := (hfollow op' hop').1
      omega
    · have hcarry : Takes (readBinaryRest bound₁ level
          (.binary op left' right' (left'.span.join right'.span))) rest rest' Q :=
        hrest _ _ (by omega) (by simp [hl', hr'])
      by_cases hrel : op.isRelational = true
      · refine .ite_true hrel (takes_peek.bind fun next hnext ↦ .ite_false ?_ hcarry)
        -- a second comparison would not take this one as its left operand
        rw [hnext]
        cases hop' : binaryOp? (nextKind rest) with
        | none => simp
        | some op' =>
          have hlt := (hfollow op' hop').2
          rw [BinaryOp.isRelational_iff] at hlt hrel
          simp only [Option.map_some, Option.getD_some, BinaryOp.isRelational_iff]
          omega
      · exact .ite_false hrel hcarry
  exact ⟨fun h ↦ by simp only [Expr.level] at h; omega, fun _ ↦ hbinary,
    whole_of_left h1 hbinary⟩

theorem conditional {cond then_ else_ : Expr} {span : Span} (hc : Readable cond)
    (ht : Readable then_) (he : Readable else_) (h1 : 1 ≤ cond.level) :
    Readable (.conditional cond then_ else_ span) := by
  refine ⟨nofun, nofun, fun bound rest hb hend ↦ ?_⟩
  obtain ⟨bound, rfl⟩ := Nat.exists_eq_add_one.2 (show 0 < bound by omega)
  simp only [Expr.words, List.length_append, List.length_cons, List.append_assoc,
    List.cons_append] at hb ⊢
  rw [readExpr]
  refine (hc.asLeft h1 bound 1 _ (by omega) h1 (by simp [fixed]) (by simp [fixed, binaryOp?])
    (fixed .question :: (then_.words ++ fixed .colon :: (else_.words ++ rest)))
    (·.bare = cond.bare) fun bound' cond' hb' hc' ↦ ?_).bind fun cond' hc' ↦ ?_
  · exact takes_stop (by omega) (by simp [fixed, binaryOp?]) hc'
  refine (takes_eat .question).bind fun b hb ↦ .ite_true hb ?_
  refine (ht.before .colon (by decide) (by omega)).bind fun then' ht' ↦
    (takes_skip _ _).bind fun _ _ ↦ (he.asWhole bound rest (by omega) hend).bind fun else' he' ↦
    .pure ?_
  simp [hc', ht', he']

end Readable

mutual

theorem Expr.readable : ∀ e : Expr, e.Grammatical → Readable e
  | .conditional cond then_ else_ _, ⟨h1, hc, ht, he⟩ =>
    .conditional (cond.readable hc) (then_.readable ht) (else_.readable he) h1
  | .binary _ left right _, ⟨hleft, hright, hl, hr⟩ =>
    .binary (left.readable hl) (right.readable hr) hleft hright
  | .binaryUnknown .., h => h.elim
  | .unary op operand _, ⟨hl, ho⟩ => .unary op (operand.readable ho) hl _
  | .call callee args _, ⟨_, ha⟩ => .call callee (Expr.allReadable args ha) _
  | .ident name _, _ => .ident name _
  | .paren inner _, h => .paren (inner.readable h) _
  | .int .., _ | .float .., _ | .string .., _ => .literal rfl
  | .bool value _, _ => .bool value _

theorem Expr.allReadable : ∀ es : List Expr, Expr.AllGrammatical es → ∀ e ∈ es, Readable e
  | [], _ => nofun
  | e :: es, ⟨he, hes⟩ => List.forall_mem_cons.2 ⟨e.readable he, Expr.allReadable es hes⟩

end

abbrev StartsStmt (kind : Token.Kind) : Prop :=
  kind ∈ [.constKw, .letKw, .ifKw, .whileKw, .openBrace, .semicolon, .ident]

theorem Stmt.nextKind_words (s : Stmt) (rest : List Word) :
    StartsStmt (nextKind (s.words ++ rest)) := by
  cases s with
  | decl isConst name value span =>
    have hdecl : ∀ isConst, StartsStmt (declKind isConst) := by decide
    exact hdecl isConst
  | assign name value span => exact (by decide : StartsStmt .ident)
  | if_ cond then_ else_ span => cases else_ <;> exact (by decide : StartsStmt .ifKw)
  | while_ cond body span => exact (by decide : StartsStmt .whileKw)
  | block stmts span => exact (by decide : StartsStmt .openBrace)
  | call callee args span => exact (by decide : StartsStmt .ident)
  | empty span => exact (by decide : StartsStmt .semicolon)

theorem StartsStmt.endsExpr {kind : Token.Kind} (h : StartsStmt kind) : EndsExpr kind := by
  revert kind
  decide

theorem Stmt.words_length_pos (s : Stmt) : 0 < s.words.length := by
  refine List.length_pos_iff.2 fun h ↦ ?_
  have := s.nextKind_words []
  rw [h] at this
  revert this
  decide

/-- A statement is read from its words, if no `else` follows that would belong to it. -/
def StmtRead (s : Stmt) : Prop :=
  ∀ bound rest, 4 * s.words.length ≤ bound + 1 → (s.takesElse = true → nextKind rest ≠ .elseKw) →
    Takes (readStmt (bound + 1)) (s.words ++ rest) rest (·.bare = s.bare)

theorem stmts_read {ss : List Stmt} (h : ∀ s ∈ ss, StmtRead s) {kind : Token.Kind}
    (hk : kind ≠ .elseKw) {m : Nat → Reading (List Stmt)} {rest : List Word}
    (hnil : ∀ bound, Takes (m (bound + 1)) (fixed kind :: rest) (fixed kind :: rest) (· = []))
    (hcons : ∀ bound ws ws' Q, StartsStmt (nextKind ws) →
      Takes (do
        let first ← readStmt bound
        let rest ← m bound
        return first :: rest) ws ws' Q → Takes (m (bound + 1)) ws ws' Q)
    {bound : Nat} (hb : 4 * (Stmt.allWords ss).length + 1 ≤ bound) :
    Takes (m bound) (Stmt.allWords ss ++ fixed kind :: rest) (fixed kind :: rest)
      (Stmt.allBare · = Stmt.allBare ss) := by
  induction ss generalizing bound with
  | nil =>
    obtain ⟨bound, rfl⟩ := Nat.exists_eq_add_one.2 (show 0 < bound by omega)
    exact (hnil bound).mono fun _ h ↦ by rw [h]
  | cons s ss ih =>
    obtain ⟨hs, hss⟩ := List.forall_mem_cons.1 h
    have hpos := s.words_length_pos
    simp only [Stmt.allWords, List.length_append, List.append_assoc] at hb ⊢
    obtain ⟨bound, rfl⟩ : ∃ n, bound = n + 1 + 1 := ⟨bound - 2, by omega⟩
    refine hcons _ _ _ _ (s.nextKind_words _) ?_
    refine (hs bound _ (by omega) fun _ ↦ ?_).bind fun s' hs' ↦
      (ih hss (by omega)).bind fun ss' hss' ↦ .pure ?_
    · cases ss with
      | nil => exact hk
      | cons s₂ ss =>
        have := s₂.nextKind_words (Stmt.allWords ss ++ fixed kind :: rest)
        rw [Stmt.allWords, List.append_assoc]
        intro he
        rw [he] at this
        revert this
        decide
    · simp [hs', hss']

theorem takes_readBlock {ss : List Stmt} (h : ∀ s ∈ ss, StmtRead s) {bound : Nat}
    (hb : 4 * (Stmt.allWords ss).length + 1 ≤ bound) (rest : List Word) :
    Takes (readBlock bound) (Stmt.allWords ss ++ fixed .closeBrace :: rest)
      (fixed .closeBrace :: rest) (Stmt.allBare · = Stmt.allBare ss) := by
  refine stmts_read h (by decide) (fun bound ↦ ?_) (fun bound ws ws' Q hs hm ↦ ?_) hb
  · rw [readBlock]
    refine takes_peek.bind fun tok htok ↦ takes_get.bind fun r _ ↦ .ite_true ?_ (.pure rfl)
    rw [htok]
    rfl
  · rw [readBlock]
    refine takes_peek.bind fun tok htok ↦ takes_get.bind fun r hr ↦ .ite_false ?_ hm
    have hends : ∀ kind, StartsStmt kind → kind ≠ .closeBrace ∧ kind ≠ .endOfFile := by decide
    have := hends _ hs
    simp [htok, hr, this]

theorem takes_readBody {ss : List Stmt} (h : ∀ s ∈ ss, StmtRead s) {bound : Nat}
    (hb : 4 * (Stmt.allWords ss).length + 1 ≤ bound) {kind : Token.Kind}
    (hk : kind = .closeBrace ∨ kind = .returnKw) (rest : List Word) :
    Takes (readBody bound) (Stmt.allWords ss ++ fixed kind :: rest) (fixed kind :: rest)
      (Stmt.allBare · = Stmt.allBare ss) := by
  refine stmts_read h (by rcases hk with rfl | rfl <;> decide) (fun bound ↦ ?_)
    (fun bound ws ws' Q hs hm ↦ ?_) hb
  · rw [readBody]
    refine takes_peek.bind fun tok htok ↦ takes_get.bind fun r _ ↦ .ite_true ?_ (.pure rfl)
    rw [htok]
    rcases hk with rfl | rfl <;> rfl
  · rw [readBody]
    refine takes_peek.bind fun tok htok ↦ takes_get.bind fun r hr ↦ .ite_false ?_ hm
    have hends : ∀ kind, StartsStmt kind → kind ≠ .closeBrace ∧ kind ≠ .returnKw ∧
      kind ≠ .endOfFile := by decide
    have := hends _ hs
    simp [htok, hr, this]

namespace StmtRead

theorem decl (isConst : Bool) (name : Ident) {value : Expr} (h : Readable value) (span : Span) :
    StmtRead (.decl isConst name value span) := by
  intro bound rest hb _
  simp only [Stmt.words, List.length_append, List.length_cons, List.length_nil, List.cons_append,
    List.append_assoc, List.nil_append] at hb ⊢
  have hlocal : Takes (readLocal bound isConst) (fixed (declKind isConst) :: (.ident, name.name) ::
      fixed .assign :: (value.words ++ fixed .semicolon :: rest)) rest
      (·.bare = (Stmt.decl isConst name value span).bare) := by
    rw [readLocal]
    refine takes_advance.bind fun tok _ ↦ (takes_expect _).bind fun id hid ↦
      (takes_skip _ _).bind fun _ _ ↦ (h.before .semicolon (by decide) (by omega)).bind
      fun value' hv ↦ (takes_expect _).bind fun _ _ ↦ .pure ?_
    simp [hv, show id.lexeme = name.name from congrArg Prod.snd hid]
  rw [readStmt]
  refine takes_peek_word.bind fun tok htok ↦ ?_
  rw [show tok.kind = declKind isConst from congrArg Prod.fst htok]
  cases isConst <;> exact hlocal

theorem assign (name : Ident) {value : Expr} (h : Readable value) (span : Span) :
    StmtRead (.assign name value span) := by
  intro bound rest hb _
  simp only [Stmt.words, List.length_append, List.length_cons, List.length_nil, List.cons_append,
    List.append_assoc, List.nil_append] at hb ⊢
  rw [readStmt]
  refine takes_peek_word.bind fun tok htok ↦ ?_
  obtain ⟨hk, ht⟩ := Prod.mk.inj htok
  rw [hk]
  refine takes_take.bind fun _ _ ↦ (takes_no_eat (by simp [fixed])).bind fun b hb' ↦
    .ite_false (by simp [hb']) ?_
  refine (takes_eat .assign).bind fun b hb' ↦ .ite_true hb' ?_
  refine (h.before .semicolon (by decide) (by omega)).bind fun value' hv ↦
    (takes_expect _).bind fun _ _ ↦ .pure ?_
  simp [hv, ht]

theorem call (callee : Ident) {args : List Expr} (h : ∀ e ∈ args, Readable e) (span : Span) :
    StmtRead (.call callee args span) := by
  intro bound rest hb _
  simp only [Stmt.words, List.length_append, List.length_cons, List.length_nil, List.cons_append,
    List.append_assoc, List.nil_append] at hb ⊢
  rw [readStmt]
  refine takes_peek_word.bind fun tok htok ↦ ?_
  obtain ⟨hk, ht⟩ := Prod.mk.inj htok
  rw [hk]
  refine takes_take.bind fun _ _ ↦ (takes_eat .openParen).bind fun b hb' ↦ .ite_true hb' ?_
  refine (takes_readArgs h (by omega)).bind fun args' ha ↦ (takes_expect _).bind fun _ _ ↦ .pure ?_
  simp [ht, ha]

theorem empty (span : Span) : StmtRead (.empty span) := by
  intro bound rest _ _
  rw [readStmt]
  refine takes_peek_word.bind fun tok htok ↦ ?_
  rw [show tok.kind = .semicolon from congrArg Prod.fst htok]
  exact takes_take.bind fun _ _ ↦ .pure rfl

theorem block {stmts : List Stmt} (h : ∀ s ∈ stmts, StmtRead s) (span : Span) :
    StmtRead (.block stmts span) := by
  intro bound rest hb _
  simp only [Stmt.words, List.length_append, List.length_cons, List.length_nil, List.cons_append,
    List.append_assoc, List.nil_append] at hb ⊢
  rw [readStmt]
  refine takes_peek_word.bind fun tok htok ↦ ?_
  rw [show tok.kind = .openBrace from congrArg Prod.fst htok]
  refine takes_take.bind fun _ _ ↦ (takes_readBlock h (by omega) rest).bind fun stmts' hs ↦
    (takes_expect _).bind fun _ _ ↦ .pure ?_
  simp [hs]

theorem at_bound {s : Stmt} (h : StmtRead s) {bound : Nat} (hb : 4 * s.words.length ≤ bound)
    {rest : List Word} (helse : s.takesElse = true → nextKind rest ≠ .elseKw) :
    Takes (readStmt bound) (s.words ++ rest) rest (·.bare = s.bare) := by
  have hpos := s.words_length_pos
  obtain ⟨bound, rfl⟩ := Nat.exists_eq_add_one.2 (show 0 < bound by omega)
  exact h bound rest hb helse

theorem while_ {cond : Expr} {body : Stmt} (hc : Readable cond) (hs : StmtRead body)
    (span : Span) : StmtRead (.while_ cond body span) := by
  intro bound rest hb helse
  simp only [Stmt.words, List.length_append, List.length_cons, List.cons_append,
    List.append_assoc] at hb ⊢
  rw [readStmt]
  refine takes_peek_word.bind fun tok htok ↦ ?_
  rw [show tok.kind = .whileKw from congrArg Prod.fst htok]
  refine takes_take.bind fun _ _ ↦
    (hc.asWhole bound _ (by omega) (body.nextKind_words rest).endsExpr).bind fun cond' hc' ↦
    (hs.at_bound (by omega) helse).bind fun body' hs' ↦ .pure ?_
  simp [hc', hs']

theorem if_ {cond : Expr} {then_ : Stmt} (hc : Readable cond) (ht : StmtRead then_)
    (span : Span) : StmtRead (.if_ cond then_ none span) := by
  intro bound rest hb helse
  simp only [Stmt.words, List.length_append, List.length_cons, List.cons_append,
    List.append_assoc] at hb ⊢
  have hnone : nextKind rest ≠ .elseKw := helse rfl
  rw [readStmt]
  refine takes_peek_word.bind fun tok htok ↦ ?_
  rw [show tok.kind = .ifKw from congrArg Prod.fst htok]
  refine takes_take.bind fun _ _ ↦
    (hc.asWhole bound _ (by omega) (then_.nextKind_words rest).endsExpr).bind fun cond' hc' ↦
    (ht.at_bound (by omega) fun _ ↦ hnone).bind fun then' ht' ↦
    (takes_no_eat hnone).bind fun b hb' ↦ .ite_false (by simp [hb']) (.pure ?_)
  simp [hc', ht']

theorem if_else {cond : Expr} {then_ else_ : Stmt} (hc : Readable cond) (ht : StmtRead then_)
    (htakes : then_.takesElse = false) (he : StmtRead else_) (span : Span) :
    StmtRead (.if_ cond then_ (some else_) span) := by
  intro bound rest hb helse
  simp only [Stmt.words, List.length_append, List.length_cons, List.cons_append,
    List.append_assoc] at hb ⊢
  rw [readStmt]
  refine takes_peek_word.bind fun tok htok ↦ ?_
  rw [show tok.kind = .ifKw from congrArg Prod.fst htok]
  refine takes_take.bind fun _ _ ↦
    (hc.asWhole bound _ (by omega) (then_.nextKind_words _).endsExpr).bind fun cond' hc' ↦
    (ht.at_bound (by omega) fun h ↦ by simp [htakes] at h).bind fun then' ht' ↦
    (takes_eat .elseKw).bind fun b hb' ↦ .ite_true hb' ?_
  refine (he.at_bound (by omega) helse).bind fun else' he' ↦ .pure ?_
  simp [hc', ht', he']

end StmtRead

mutual

theorem Stmt.read : ∀ s : Stmt, s.Grammatical → StmtRead s
  | .decl isConst name value _, ⟨_, hv⟩ => .decl isConst name (value.readable hv) _
  | .assign name value _, ⟨_, hv⟩ => .assign name (value.readable hv) _
  | .if_ cond then_ none _, ⟨hc, ht⟩ => .if_ (cond.readable hc) (then_.read ht) _
  | .if_ cond then_ (some else_) _, ⟨hc, ht, htakes, he⟩ =>
    .if_else (cond.readable hc) (then_.read ht) htakes (else_.read he) _
  | .while_ cond body _, ⟨hc, hb⟩ => .while_ (cond.readable hc) (body.read hb) _
  | .block stmts _, h => .block (Stmt.allRead stmts h) _
  | .call callee args _, ⟨_, ha⟩ => .call callee (Expr.allReadable args ha) _
  | .empty _, _ => .empty _

theorem Stmt.allRead : ∀ ss : List Stmt, Stmt.AllGrammatical ss → ∀ s ∈ ss, StmtRead s
  | [], _ => nofun
  | s :: ss, ⟨hs, hss⟩ => List.forall_mem_cons.2 ⟨s.read hs, Stmt.allRead ss hss⟩

end

theorem takes_readType (name : TypeName) :
    Takes readType (fixed name.kind :: ws) ws (·.name = name) := by
  rw [readType]
  refine takes_peek_word.bind fun tok htok ↦ ?_
  rw [show tok.kind = name.kind from congrArg Prod.fst htok]
  cases name <;> exact takes_take.bind fun _ _ ↦ .pure rfl

theorem takes_readParams {ps : List Param} (hps : ps ≠ []) {bound : Nat}
    (hb : ps.length ≤ bound) (rest : List Word) :
    Takes (readParams bound) (Param.listWords ps ++ fixed .closeParen :: rest)
      (fixed .closeParen :: rest) (·.map Param.bare = ps.map Param.bare) := by
  induction ps generalizing bound with
  | nil => exact absurd rfl hps
  | cons p ps ih =>
    rw [List.length_cons] at hb
    obtain ⟨bound, rfl⟩ := Nat.exists_eq_add_one.2 (show 0 < bound by omega)
    rw [readParams]
    cases ps with
    | nil =>
      refine (takes_expect _).bind fun name hn ↦ (takes_skip _ _).bind fun _ _ ↦
        (takes_readType p.type.name).bind fun type ht ↦ (takes_no_eat (by simp [fixed])).bind
        fun b hb' ↦ .ite_false (by simp [hb']) (.pure ?_)
      simp only [List.map_cons, List.map_nil, Param.bare, ht,
        show name.lexeme = p.name.name from congrArg Prod.snd hn]
    | cons p₂ ps =>
      refine (takes_expect _).bind fun name hn ↦ (takes_skip _ _).bind fun _ _ ↦
        (takes_readType p.type.name).bind fun type ht ↦ (takes_eat .comma).bind
        fun b hb' ↦ .ite_true hb' ?_
      refine (ih (by simp) (by omega)).bind fun ps' hps' ↦ .pure ?_
      have hp : Param.bare ⟨⟨name.lexeme, name.span⟩, type⟩ = p.bare := by
        rw [Param.bare, Param.bare, ht, show name.lexeme = p.name.name from congrArg Prod.snd hn]
      rw [List.map_cons, hp, hps']
      rfl

theorem takes_readNumber {e : Expr} (h : e.IsNumber) :
    Takes readNumber (e.words ++ ws) ws fun v ↦ ∃ e', v = some e' ∧ e'.bare = e.bare := by
  rw [readNumber]
  cases e with
  | int text span | float text span =>
    refine takes_peek_word.bind fun tok htok ↦ ?_
    obtain ⟨hk, ht⟩ := Prod.mk.inj htok
    rw [hk]
    exact takes_take.bind fun _ _ ↦ .pure ⟨_, rfl, by simp [ht]⟩
  | _ => exact h.elim

theorem nextKind_number {e : Expr} (h : e.IsNumber) (rest : List Word) :
    nextKind (e.words ++ rest) = .int ∨ nextKind (e.words ++ rest) = .float := by
  cases e with
  | int text span => exact .inl rfl
  | float text span => exact .inr rfl
  | _ => exact h.elim

theorem takes_readInitializer {e : Expr} (h : e.IsInitializer) :
    Takes readInitializer (e.words ++ ws) ws fun v ↦ ∃ e', v = some e' ∧ e'.bare = e.bare := by
  have hnumber : e.IsNumber →
      Takes readInitializer (e.words ++ ws) ws fun v ↦ ∃ e', v = some e' ∧ e'.bare = e.bare := by
    intro hn
    rw [readInitializer]
    refine takes_peek.bind fun tok htok ↦ ?_
    rw [htok]
    rcases nextKind_number hn ws with hk | hk <;> rw [hk] <;> exact takes_readNumber hn
  cases e with
  | bool value span =>
    rw [readInitializer]
    refine takes_peek_word.bind fun tok htok ↦ ?_
    have hk : tok.kind = _ := congrArg Prod.fst htok
    rw [hk]
    cases value <;> exact takes_take.bind fun _ _ ↦ .pure ⟨_, rfl, rfl⟩
  | unary op operand span =>
    obtain ⟨hop, hn⟩ := h
    rw [readInitializer]
    refine takes_peek_word.bind fun tok htok ↦ ?_
    rw [show tok.kind = op.kind from congrArg Prod.fst htok]
    cases op with
    | not => exact absurd rfl hop
    | negate | identity =>
      refine takes_take.bind fun _ _ ↦ (takes_readNumber hn).bind fun v hv ↦ ?_
      obtain ⟨e', rfl, he'⟩ := hv
      exact .pure ⟨_, rfl, by simp [he']⟩
  | _ => exact hnumber h

abbrev DeclTaken (d : Decl) (v : Option Decl) : Prop := ∃ d', v = some d' ∧ d'.bare = d.bare

theorem takes_readVar (isConst : Bool) (name : Ident) {value : Expr} (h : value.IsInitializer)
    (span : Span) : Takes (readVar isConst) ((Decl.var isConst name value span).words ++ ws) ws
      (DeclTaken (.var isConst name value span)) := by
  rw [readVar, Decl.words]
  simp only [List.cons_append, List.append_assoc, List.nil_append]
  refine takes_advance.bind fun tok _ ↦ (takes_expect _).bind fun id hid ↦ ?_
  obtain ⟨hk, ht⟩ := Prod.mk.inj hid
  refine .ite_false (by simp [hk]) ((takes_skip _ _).bind fun _ _ ↦
    (takes_readInitializer h).bind fun v hv ↦ (takes_expect _).bind fun _ _ ↦ .pure ?_)
  obtain ⟨value', rfl, hv⟩ := hv
  exact ⟨_, rfl, by rw [Decl.bare, Decl.bare, ht, hv]⟩

theorem takes_readResult {result : Option Result} {type : Option TypeRef} {bound : Nat}
    (htype : type.map TypeRef.name = result.map fun r ↦ r.type.name)
    (h : ∀ r ∈ result, Readable r.value)
    (hb : 4 * (Result.returnWords result).length ≤ bound) :
    Takes (readResult bound type) (Result.returnWords result ++ fixed .closeBrace :: ws)
      (fixed .closeBrace :: ws) (·.map Result.bare = result.map Result.bare) := by
  cases result with
  | none =>
    obtain rfl : type = none := by simpa using htype
    rw [readResult]
    exact takes_peek.bind fun tok htok ↦ .ite_false (by simp [htok, fixed, Result.returnWords])
      (.pure rfl)
  | some result =>
    obtain ⟨type, rfl, ht⟩ : ∃ t, type = some t ∧ t.name = result.type.name := by
      simpa using htype
    simp only [Result.returnWords, List.length_cons, List.length_append, List.length_nil,
      List.cons_append, List.append_assoc, List.nil_append] at hb ⊢
    rw [readResult]
    refine (takes_skip _ _).bind fun _ _ ↦
      ((h result rfl).before .semicolon (by decide) (by omega)).bind fun value' hv ↦
      (takes_skip _ _).bind fun _ _ ↦ .pure ?_
    simp only [Option.map_some, Result.bare, ht, hv]

theorem Param.length_le_listWords (ps : List Param) :
    ps.length ≤ (Param.listWords ps).length := by
  induction ps with
  | nil => exact Nat.le_refl _
  | cons p ps ih =>
    cases ps with
    | nil => simp [Param.listWords, Param.words]
    | cons p₂ ps =>
      simp only [Param.listWords, Param.words, List.length_append, List.length_cons] at ih ⊢
      omega

theorem takes_params (ps : List Param) (bound : Nat)
    (hb : (Param.listWords ps).length ≤ bound) {tok : Token} {rest : List Word}
    (htok : tok.kind = nextKind (Param.listWords ps ++ fixed .closeParen :: rest)) :
    (tok.kind = .closeParen → Takes (pure []) (Param.listWords ps ++ fixed .closeParen :: rest)
      (fixed .closeParen :: rest) fun a : List Param ↦ a.map Param.bare = ps.map Param.bare) ∧
    (¬tok.kind = .closeParen → Takes (readParams bound)
      (Param.listWords ps ++ fixed .closeParen :: rest) (fixed .closeParen :: rest)
      fun a ↦ a.map Param.bare = ps.map Param.bare) := by
  have hlen := Param.length_le_listWords ps
  cases ps with
  | nil => exact ⟨fun _ ↦ .pure rfl, fun h ↦ absurd htok h⟩
  | cons p ps =>
    refine ⟨fun h ↦ ?_, fun _ ↦ takes_readParams (by simp) (by omega) rest⟩
    rw [h] at htok
    cases ps <;> exact nomatch htok

theorem takes_type {β : Type} {result : Option Result} {f : Option TypeRef → Reading β}
    {S : β → Prop} (hrest : nextKind rest ≠ .colon)
    (hf : ∀ type, type.map TypeRef.name = result.map (fun r ↦ r.type.name) →
      Takes (f type) rest ws S) :
    Takes (do if ← eat .colon then some <$> readType >>= f else pure none >>= f)
      (Result.typeWords result ++ rest) ws S := by
  cases result with
  | none =>
    exact (takes_no_eat hrest).bind fun b hb ↦ .ite_false (by simp [hb]) (hf none rfl)
  | some result =>
    refine (takes_eat .colon).bind fun b hb ↦ .ite_true hb ?_
    refine Takes.bind (P := fun type ↦ type.map TypeRef.name = some result.type.name)
      ((takes_readType result.type.name).bind fun type ht ↦ .pure ?_) hf
    rw [Option.map_some, ht]

theorem returnWords_head (result : Option Result) (rest : List Word) :
    ∃ kind ws, Result.returnWords result ++ fixed .closeBrace :: rest = fixed kind :: ws ∧
      (kind = .closeBrace ∨ kind = .returnKw) := by
  cases result with
  | none => exact ⟨_, _, rfl, .inl rfl⟩
  | some result => exact ⟨_, _, rfl, .inr rfl⟩

theorem takes_readFun {name : Ident} {params : List Param} {body : List Stmt}
    {result : Option Result} {span : Span} (hbody : Stmt.AllGrammatical body)
    (hresult : ∀ r ∈ result, r.value.Grammatical) {bound : Nat}
    (hb : 4 * (Decl.fun_ name params body result span).words.length ≤ bound) :
    Takes (readFun bound) ((Decl.fun_ name params body result span).words ++ ws) ws
      (DeclTaken (.fun_ name params body result span)) := by
  simp only [Decl.words, List.length_append, List.length_cons, List.length_nil, List.cons_append,
    List.append_assoc, List.nil_append] at hb ⊢
  have hread : ∀ type : Option TypeRef,
      type.map TypeRef.name = result.map (fun r ↦ r.type.name) →
      Takes (readResult bound type) (Result.returnWords result ++ fixed .closeBrace :: ws)
        (fixed .closeBrace :: ws) (·.map Result.bare = result.map Result.bare) :=
    fun type ht ↦ takes_readResult ht (fun r hr ↦ r.value.readable (hresult r hr)) (by omega)
  rw [readFun]
  refine takes_advance.bind fun tok _ ↦ (takes_expect _).bind fun id hid ↦ ?_
  obtain ⟨hk, hname⟩ := Prod.mk.inj hid
  refine .ite_false (by simp [hk]) ((takes_skip _ _).bind fun _ _ ↦
    takes_peek.bind fun next hnext ↦ ?_)
  obtain ⟨hnil, hcons⟩ := takes_params params bound (by omega) hnext
  refine .ite_bind hnil hcons fun params' hparams ↦ (takes_skip _ _).bind fun _ _ ↦ ?_
  obtain ⟨kind, after, hafter, hend⟩ := returnWords_head result ws
  refine takes_type (by simp [fixed]) fun type htype ↦ (takes_skip _ _).bind fun _ _ ↦ ?_
  rw [hafter]
  refine (takes_readBody (Stmt.allRead body hbody) (by omega) hend after).bind fun body' hbody' ↦
    takes_peek.bind fun _ _ ↦ takes_get.bind fun s hs ↦ .ite_false (by simp [hs]) ?_
  rw [← hafter]
  refine (hread type htype).bind fun result' hresult' ↦ (takes_expect _).bind fun _ _ ↦
    takes_get.bind fun s hs ↦ .ite_false (by simp [hs]) (.pure ⟨_, rfl, ?_⟩)
  rw [Decl.bare, Decl.bare, hname, hparams, hbody', hresult']

theorem takes_readDecl {d : Decl} (h : d.Grammatical) {bound : Nat}
    (hb : 4 * d.words.length ≤ bound) :
    Takes (readDecl bound) (d.words ++ ws) ws (DeclTaken d) := by
  have hrestart : ∀ ws, Takes (modify fun r : Reader ↦ { r with failed := false }) ws ws
      fun _ ↦ True := fun ws r hr ↦ ⟨_, _, rfl, ⟨hr.words, rfl, hr.errors⟩, trivial⟩
  rw [readDecl]
  refine (hrestart _).bind fun _ _ ↦ ?_
  cases d with
  | var isConst name value span =>
    refine takes_peek_word.bind fun tok htok ↦ ?_
    rw [show tok.kind = declKind isConst from congrArg Prod.fst htok]
    cases isConst <;> exact (takes_readVar _ name h.2.1 span).bind fun d hd ↦
      takes_get.bind fun s hs ↦ .ite_false (by simp [hs]) (.pure hd)
  | fun_ name params body result span =>
    refine takes_peek_word.bind fun tok htok ↦ ?_
    rw [show tok.kind = .funKw from congrArg Prod.fst htok]
    exact (takes_readFun h.2.2.1 h.2.2.2 hb).bind fun d hd ↦
      takes_get.bind fun s hs ↦ .ite_false (by simp [hs]) (.pure hd)

theorem Decl.nextKind_words (d : Decl) (rest : List Word) :
    nextKind (d.words ++ rest) ≠ .endOfFile := by
  cases d with
  | var isConst name value span => cases isConst <;> exact nofun
  | fun_ name params body result span => exact nofun

theorem takes_readProgram {program : Program} (h : program.Grammatical) {bound : Nat}
    (hb : 4 * program.words.length + 1 ≤ bound) :
    Takes (readProgram bound) program.words [] (·.map Decl.bare = program.map Decl.bare) := by
  induction program generalizing bound with
  | nil =>
    obtain ⟨bound, rfl⟩ := Nat.exists_eq_add_one.2 (show 0 < bound by omega)
    rw [readProgram]
    exact takes_peek.bind fun _ htok ↦ .ite_true htok (.pure rfl)
  | cons d program ih =>
    obtain ⟨hd, hprogram⟩ := List.forall_mem_cons.1 h
    have hpos := List.length_pos_iff.2 (words_ne_nil d)
    have hwords : Program.words (d :: program) = d.words ++ Program.words program := rfl
    rw [hwords, List.length_append] at hb
    rw [hwords]
    obtain ⟨bound, rfl⟩ := Nat.exists_eq_add_one.2 (show 0 < bound by omega)
    rw [readProgram]
    refine takes_peek.bind fun _ htok ↦ .ite_false (by rw [htok]; exact d.nextKind_words _) ?_
    refine (takes_readDecl hd (by omega)).bind fun v hv ↦
      (ih hprogram (by omega)).bind fun rest hrest ↦ .pure ?_
    obtain ⟨d', rfl, hd'⟩ := hv
    rw [Option.toList_some, List.singleton_append, List.map_cons, hd', hrest, List.map_cons]

theorem parse_of_words {program : Program} (h : program.Grammatical) {tokens : List Token}
    (hw : tokens.map Token.word = program.words ++ [(.endOfFile, [])]) :
    ∃ program', parse tokens = (program', []) ∧
      program'.map Decl.bare = program.map Decl.bare := by
  cases tokens with
  | nil => simp at hw
  | cons first rest =>
    have hlen := congrArg List.length hw
    rw [List.length_map, List.length_append, List.length_singleton] at hlen
    have hbound : 4 * program.words.length + 1 ≤ 8 * (first :: rest).length + 16 := by omega
    obtain ⟨program', r', hr, hat, hsame⟩ :=
      takes_readProgram h hbound ⟨first, first, rest, false, []⟩ ⟨hw, rfl, rfl⟩
    refine ⟨program', ?_, hsame⟩
    simp only [parse, StateT.run, hr, hat.errors]

/-- A grammatical program, written with a space between its words, is read back without an error
and is the same up to the places of its parts. -/
theorem parse_written (program : Program) (h : program.Grammatical) (name : Bytes) :
    ∃ program', parseFile ⟨name, Token.joined program.words⟩ = (program', []) ∧
      program'.map Decl.bare = program.map Decl.bare :=
  parse_of_words h (Token.scan_joined (program.words_proper h))

def guarded : Program :=
  let a : Ident := ⟨ascii "a", default⟩
  let use : Expr := .ident (ascii "a") default
  let one : Expr := .int (ascii "1") default
  [.fun_ ⟨ascii "f", default⟩ [⟨a, ⟨.int, default⟩⟩]
    [.if_ (.binary .less use (.binary .plus one use default) default)
      (.assign a (.unary .negate one default) default)
      (some (.call ⟨ascii "f", default⟩ [use] default)) default] none default]

theorem guarded_parses : guarded.Grammatical ∧
    ∃ program, parseFile ⟨ascii "guarded.p0", Token.joined guarded.words⟩ = (program, []) ∧
      program.map Decl.bare = guarded.map Decl.bare := by
  have ha : Token.IsIdent (ascii "a") :=
    ⟨⟨⟨97, [], rfl, by decide⟩, List.all_eq_true.1 (by decide)⟩, by decide⟩
  have hf : Token.IsIdent (ascii "f") :=
    ⟨⟨⟨102, [], rfl, by decide⟩, List.all_eq_true.1 (by decide)⟩, by decide⟩
  have h1 : IsDigits (ascii "1") := ⟨by decide, List.all_eq_true.1 (by decide)⟩
  have hless : BinaryOp.less.TakesLeft 6 := ⟨by decide, by decide⟩
  have hplus : BinaryOp.plus.TakesLeft 6 := ⟨by decide, by decide⟩
  have hg : guarded.Grammatical := by
    refine List.forall_mem_singleton.2 ⟨hf, List.forall_mem_singleton.2 ha, ⟨?_, trivial⟩, nofun⟩
    exact ⟨⟨hless, by decide, ha, hplus, by decide, h1, ha⟩, ⟨ha, rfl, h1⟩, rfl, hf, ha, trivial⟩
  exact ⟨hg, parse_written guarded hg (ascii "guarded.p0")⟩

end PZero.Surface
