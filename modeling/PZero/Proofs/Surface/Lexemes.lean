import Mathlib.Data.List.TakeWhile
import Mathlib.Tactic.Common
import PZero.Proofs.Surface.Grammar

namespace PZero

namespace Token

open Surface (IsDigits IsName IsFraction IsExponent IsFloat)

def Kind.isFixed : Kind → Bool
  | .ident | .int | .float | .string | .endOfFile | .bad => false
  | _ => true

theorem inClass_spelling {kind : Kind} (h : kind.isFixed = true) : InClass kind.spelling kind := by
  cases kind <;> first | rfl | cases h

theorem eq_spelling {kind : Kind} {text : Bytes} (h : kind.isFixed = true)
    (ht : InClass text kind) : text = kind.spelling := by
  cases kind <;> first | exact ht | cases h

theorem table_fixed : ∀ x ∈ keywords ++ symbols, x.2.isFixed = true ∧ x.1 = x.2.spelling := by
  decide

theorem inClass_of_table {x : Bytes × Kind} (h : x ∈ keywords ++ symbols) : InClass x.1 x.2 := by
  obtain ⟨hf, hs⟩ := table_fixed x h
  rw [hs]
  exact inClass_spelling hf

/-- A kind that a token before the end has, with a text of its class. -/
def Fine (kind : Kind) (lexeme : Bytes) : Prop := kind ≠ .endOfFile ∧ InClass lexeme kind

theorem fine_of_table {x : Bytes × Kind} (h : x ∈ keywords ++ symbols) : Fine x.2 x.1 := by
  refine ⟨?_, inClass_of_table h⟩
  intro he
  have hf := (table_fixed x h).1
  rw [he] at hf
  cases hf

theorem wordKind_fine {word : Bytes} (h : IsName word) : Fine (wordKind word) word := by
  unfold wordKind
  cases hl : keywords.lookup word with
  | none =>
    refine ⟨by decide, h, fun hm ↦ ?_⟩
    obtain ⟨⟨text, kind⟩, hk, rfl⟩ := List.mem_map.1 hm
    simpa using List.lookup_eq_none_iff.1 hl _ hk
  | some kind =>
    obtain ⟨l₁, l₂, he, -⟩ := List.lookup_eq_some_iff.1 hl
    have hm : (word, kind) ∈ keywords := by simp [he]
    exact fine_of_table (List.mem_append_left _ hm)

@[simp] theorem stringWidth_newline (rest : Bytes) : stringWidth (10 :: rest) = (false, 1) := by
  cases rest <;> rfl

@[simp] theorem stringWidth_quote (rest : Bytes) : stringWidth (34 :: rest) = (true, 1) := by
  cases rest <;> rfl

@[simp] theorem stringWidth_escaped (b : UInt8) (rest : Bytes) :
    stringWidth (92 :: b :: rest) = ((stringWidth rest).1, (stringWidth rest).2 + 2) := rfl

theorem stringWidth_byte {b : UInt8} (hn : b ≠ 10) (hq : b ≠ 34) (hs : b ≠ 92) (rest : Bytes) :
    stringWidth (b :: rest) = ((stringWidth rest).1, (stringWidth rest).2 + 1) := by
  cases rest with
  | nil => simp [stringWidth, hn, hq, hs]
  | cons c rest => simp only [stringWidth, hn, hq, hs, if_false]

theorem stringWidth_closed {text : Bytes} {width : Nat} (h : stringWidth text = (true, width)) :
    IsStringTail (text.take width) := by
  induction text using stringWidth.induct generalizing width with
  | case1 => cases h
  | case2 rest => simp at h
  | case3 rest _ =>
    obtain rfl : 1 = width := by simpa using h
    exact .close
  | case4 => cases h
  | case5 b rest _ _ _ _ _ ih =>
    obtain ⟨hc, rfl⟩ : (stringWidth rest).1 = true ∧ (stringWidth rest).2 + 2 = width := by
      simpa using h
    exact .escaped b (ih (Prod.ext hc rfl))
  | case6 b rest hn hq hs _ _ _ ih =>
    rw [stringWidth_byte hn hq hs, Prod.mk.injEq] at h
    obtain ⟨hc, rfl⟩ := h
    exact .byte hn hq hs (ih (Prod.ext hc rfl))

theorem take_takeWhile {α : Type} (p : α → Bool) (l : List α) :
    l.take (l.takeWhile p).length = l.takeWhile p :=
  (List.prefix_iff_eq_take.1 (List.takeWhile_prefix p)).symm

theorem isDigits_take {text : Bytes} (h : digitsWidth text ≠ 0) :
    IsDigits (text.take (digitsWidth text)) := by
  rw [digitsWidth, take_takeWhile]
  refine ⟨?_, fun b hb ↦ List.mem_takeWhile_imp hb⟩
  intro hn
  rw [digitsWidth, hn] at h
  exact h rfl

theorem isFraction_take (text : Bytes) : IsFraction (text.take (fractionWidth text)) := by
  unfold fractionWidth
  split
  · rename_i rest
    split
    · exact .inl rfl
    · rename_i h
      rw [Nat.add_comm, List.take_succ_cons]
      exact .inr ⟨_, rfl, isDigits_take h⟩
  · exact .inl rfl

theorem sign_take (text : Bytes) : text.take (signWidth text) ∈ [[], [43], [45]] := by
  cases text with
  | nil => simp
  | cons b rest =>
    simp only [signWidth]
    split
    · rename_i h
      simp only [Bool.or_eq_true, decide_eq_true_eq] at h
      rcases h with rfl | rfl <;> simp
    · simp

theorem isExponent_take (text : Bytes) : IsExponent (text.take (exponentWidth text)) := by
  cases text with
  | nil => exact .inl rfl
  | cons b rest =>
    simp only [exponentWidth]
    split
    · rename_i hb
      split
      · exact .inl rfl
      · rename_i hd
        rw [Nat.add_assoc, Nat.add_comm, List.take_succ_cons, List.take_add]
        refine .inr ⟨b, _, _, rfl, ?_, sign_take rest, isDigits_take hd⟩
        simpa using hb
    · exact .inl rfl

theorem isFloat_take {text : Bytes} (h : digitsWidth text ≠ 0) :
    IsFloat (text.take (digitsWidth text + fractionWidth (text.drop (digitsWidth text)) +
      exponentWidth (text.drop (digitsWidth text +
        fractionWidth (text.drop (digitsWidth text)))))) := by
  rw [Nat.add_assoc, List.take_add, List.take_add, List.drop_drop]
  exact ⟨_, _, _, rfl, isDigits_take h, isFraction_take _, isExponent_take _⟩

theorem head_of_width {text : Bytes} (h : fractionWidth text ≠ 0 ∨ exponentWidth text ≠ 0) :
    ∃ b rest, text = b :: rest ∧ Bytes.isDigit b = false := by
  cases text with
  | nil => simp [fractionWidth, exponentWidth] at h
  | cons b rest =>
    refine ⟨b, rest, rfl, ?_⟩
    rcases h with h | h
    · unfold fractionWidth at h
      split at h
      · rename_i heq
        cases heq
        decide
      · exact absurd rfl h
    · simp only [exponentWidth] at h
      split at h
      · rename_i hb
        simp only [Bool.or_eq_true, decide_eq_true_eq] at hb
        rcases hb with rfl | rfl <;> decide
      · exact absurd rfl h

theorem frontNumber_fine {b : UInt8} {rest : Bytes} (hb : Bytes.isDigit b) :
    ∃ kind lexeme width, frontNumber (b :: rest) = .token kind lexeme width ∧ Fine kind lexeme := by
  refine ⟨_, _, _, rfl, ?_, ?_⟩
  · split <;> decide
  have hw : digitsWidth (b :: rest) ≠ 0 := by simp [digitsWidth, hb]
  have hfloat := isFloat_take hw
  have hdigits := isDigits_take hw
  generalize b :: rest = text at hfloat hdigits ⊢
  generalize digitsWidth text = whole at hfloat hdigits ⊢
  by_cases h0 : fractionWidth (text.drop whole) +
      exponentWidth (text.drop (whole + fractionWidth (text.drop whole))) = 0
  · rw [if_pos h0, Nat.add_assoc, h0, Nat.add_zero]
    exact hdigits
  · rw [if_neg h0]
    refine ⟨hfloat, fun hd ↦ ?_⟩
    -- the byte behind the first digits belongs to the number and is none
    have hw : fractionWidth (text.drop whole) ≠ 0 ∨ exponentWidth (text.drop whole) ≠ 0 := by
      by_cases hf : fractionWidth (text.drop whole) = 0
      · rw [hf, Nat.add_zero] at h0
        exact .inr (by omega)
      · exact .inl hf
    obtain ⟨c, tail, hc, hdigit⟩ := head_of_width hw
    have hmem : c ∈ text.take (whole + fractionWidth (text.drop whole) +
        exponentWidth (text.drop (whole + fractionWidth (text.drop whole)))) := by
      rw [Nat.add_assoc, List.take_add]
      refine List.mem_append_right _ ?_
      obtain ⟨k, hk⟩ := Nat.exists_eq_succ_of_ne_zero h0
      rw [hk, hc, List.take_succ_cons]
      exact List.mem_cons_self
    have := hd.2 c hmem
    rw [hdigit] at this
    cases this

theorem frontString_fine (text : Bytes) :
    ∃ kind lexeme width, frontString (34 :: text) = .token kind lexeme width ∧
      Fine kind lexeme := by
  rcases hw : stringWidth text with ⟨closed, width⟩
  have hf : frontString (34 :: text) =
      .taken (if closed then .string else .bad) (34 :: text) (1 + width) := by
    simp only [frontString, List.drop_succ_cons, List.drop_zero, hw]
  cases closed with
  | false => exact ⟨_, _, _, hf, by decide, trivial⟩
  | true =>
    refine ⟨_, _, _, hf, by decide, text.take width, ?_, stringWidth_closed hw⟩
    rw [Nat.add_comm, List.take_succ_cons]

theorem frontSymbol_fine (b : UInt8) (text : Bytes) :
    ∃ kind lexeme width, frontSymbol b text = .token kind lexeme width ∧ Fine kind lexeme := by
  unfold frontSymbol
  split
  · rename_i spelling kind hf
    exact ⟨_, _, _, rfl,
      fine_of_table (List.mem_append_right _ (List.mem_of_find?_eq_some hf))⟩
  · exact ⟨_, _, _, rfl, by decide, trivial⟩

theorem front_fine (b : UInt8) (rest : Bytes) :
    (∃ width, front b (b :: rest) = .gap width) ∨
      ∃ kind lexeme width, front b (b :: rest) = .token kind lexeme width ∧ Fine kind lexeme := by
  unfold front
  split
  · exact .inl ⟨_, rfl⟩
  split
  · exact .inl ⟨_, rfl⟩
  split
  · unfold frontComment
    split
    · exact .inl ⟨_, rfl⟩
    · exact .inr ⟨_, _, _, rfl, by decide, trivial⟩
  split
  · rename_i hb
    refine .inr ⟨_, _, _, rfl, wordKind_fine ⟨⟨b, rest.takeWhile isWordByte, ?_, hb⟩, ?_⟩⟩
    · rw [List.takeWhile_cons_of_pos (by simp [isWordByte, hb])]
    · exact fun c hc ↦ List.mem_takeWhile_imp hc
  split
  · exact .inr (frontNumber_fine ‹_›)
  split
  · rename_i hq
    subst hq
    exact .inr (frontString_fine rest)
  · exact .inr (frontSymbol_fine b _)

/-- Tokens that end with the end of the file and have texts of their classes. -/
def Closed (tokens : List Token) : Prop :=
  ∃ before last, tokens = before ++ [last] ∧ last.word = (.endOfFile, []) ∧
    ∀ t ∈ before, Fine t.kind t.lexeme

theorem scanFrom_closed (bound offset : Nat) (text : Bytes) :
    Closed (scanFrom bound offset text) := by
  induction bound generalizing offset text with
  | zero => exact ⟨[], _, rfl, rfl, by simp⟩
  | succ bound ih =>
    cases text with
    | nil => exact ⟨[], _, rfl, rfl, by simp⟩
    | cons b rest =>
      simp only [scanFrom]
      rcases front_fine b rest with ⟨width, hf⟩ | ⟨kind, lexeme, width, hf, hfine⟩
      · simp only [hf]
        exact ih _ _
      · simp only [hf]
        obtain ⟨before, last, he, hl, hall⟩ := ih (offset + width) ((b :: rest).drop width)
        refine ⟨_ :: before, last, by rw [he, List.cons_append], hl, ?_⟩
        intro t ht
        rcases List.mem_cons.1 ht with rfl | ht
        · exact hfine
        · exact hall t ht

theorem scan_closed (text : Bytes) : Closed (scan text) := scanFrom_closed _ _ _

def Proper (w : Word) : Prop := w.1 ≠ .bad ∧ Fine w.1 w.2

theorem proper_fixed {kind : Kind} (h : kind.isFixed = true) : Proper (fixed kind) := by
  refine ⟨?_, ?_, inClass_spelling h⟩
  · rintro he
    rw [show kind = .bad from he] at h
    cases h
  · rintro he
    rw [show kind = .endOfFile from he] at h
    cases h

end Token

theorem BinaryOp.isFixed_kind (op : BinaryOp) : op.kind.isFixed = true := by cases op <;> rfl

theorem UnaryOp.isFixed_kind (op : UnaryOp) : op.kind.isFixed = true := by cases op <;> rfl

@[simp] theorem BinaryOp.spelling_kind (op : BinaryOp) : op.kind.spelling = op.symbol := by
  cases op <;> decide

@[simp] theorem UnaryOp.spelling_kind (op : UnaryOp) : op.kind.spelling = op.symbol := by
  cases op <;> decide

theorem BinaryOp.proper_word (op : BinaryOp) : Token.Proper (op.kind, op.symbol) := by
  rw [← op.spelling_kind]
  exact Token.proper_fixed op.isFixed_kind

theorem UnaryOp.proper_word (op : UnaryOp) : Token.Proper (op.kind, op.symbol) := by
  rw [← op.spelling_kind]
  exact Token.proper_fixed op.isFixed_kind

namespace Surface

open Token (fixed Proper proper_fixed Fine IsIdent)

theorem TypeName.isFixed_kind (name : TypeName) : name.kind.isFixed = true := by
  cases name <;> rfl

theorem declKind_isFixed (isConst : Bool) : (declKind isConst).isFixed = true := by
  cases isConst <;> rfl

theorem proper_ident {name : Bytes} (h : IsIdent name) : Proper (.ident, name) :=
  ⟨nofun, nofun, h⟩

abbrev AllProper (ws : List Word) : Prop := ∀ w ∈ ws, Proper w

@[simp] theorem allProper_append {a b : List Word} :
    AllProper (a ++ b) ↔ AllProper a ∧ AllProper b := List.forall_mem_append

@[simp] theorem allProper_cons {w : Word} {ws : List Word} :
    AllProper (w :: ws) ↔ Proper w ∧ AllProper ws := List.forall_mem_cons

@[simp] theorem allProper_nil : AllProper [] := by simp [AllProper]

mutual

theorem Expr.words_proper : ∀ e : Expr, e.Grammatical → AllProper e.words
  | .conditional cond then_ else_ _, ⟨_, hc, ht, he⟩ => by
    simp only [words, allProper_append, allProper_cons]
    exact ⟨cond.words_proper hc, proper_fixed rfl, then_.words_proper ht, proper_fixed rfl,
      else_.words_proper he⟩
  | .binary op left right _, ⟨_, _, hl, hr⟩ => by
    simp only [words, allProper_append, allProper_cons]
    exact ⟨left.words_proper hl, op.proper_word, right.words_proper hr⟩
  | .binaryUnknown .., h => h.elim
  | .unary op operand _, ⟨_, ho⟩ => by
    simp only [words, allProper_cons]
    exact ⟨op.proper_word, operand.words_proper ho⟩
  | .call callee args _, ⟨hn, ha⟩ => by
    simp only [words, allProper_append, allProper_cons]
    exact ⟨proper_ident hn, proper_fixed rfl, Expr.listWords_proper args ha, proper_fixed rfl,
      allProper_nil⟩
  | .ident name _, h => List.forall_mem_singleton.2 (proper_ident h)
  | .paren inner _, h => by
    simp only [words, allProper_append, allProper_cons]
    exact ⟨proper_fixed rfl, inner.words_proper h, proper_fixed rfl, allProper_nil⟩
  | .int text _, h => List.forall_mem_singleton.2 ⟨nofun, nofun, h⟩
  | .float text _, h => List.forall_mem_singleton.2 ⟨nofun, nofun, h⟩
  | .string text _, h => List.forall_mem_singleton.2 ⟨nofun, nofun, h⟩
  | .bool value _, _ => List.forall_mem_singleton.2 (proper_fixed (by cases value <;> rfl))

theorem Expr.listWords_proper : ∀ es : List Expr, Expr.AllGrammatical es →
    AllProper (Expr.listWords es)
  | [], _ => allProper_nil
  | [e], ⟨he, _⟩ => e.words_proper he
  | e :: e' :: es, ⟨he, hes⟩ => by
    simp only [Expr.listWords, allProper_append, allProper_cons]
    exact ⟨e.words_proper he, proper_fixed rfl, Expr.listWords_proper (e' :: es) hes⟩

end

mutual

theorem Stmt.words_proper : ∀ s : Stmt, s.Grammatical → AllProper s.words
  | .decl isConst name value _, ⟨hn, hv⟩ => by
    simp only [words, allProper_append, allProper_cons]
    exact ⟨proper_fixed (declKind_isFixed isConst), proper_ident hn, proper_fixed rfl,
      value.words_proper hv, proper_fixed rfl, allProper_nil⟩
  | .assign name value _, ⟨hn, hv⟩ => by
    simp only [words, allProper_append, allProper_cons]
    exact ⟨proper_ident hn, proper_fixed rfl, value.words_proper hv, proper_fixed rfl,
      allProper_nil⟩
  | .if_ cond then_ none _, ⟨hc, ht⟩ => by
    simp only [words, allProper_append, allProper_cons]
    exact ⟨proper_fixed rfl, cond.words_proper hc, then_.words_proper ht⟩
  | .if_ cond then_ (some else_) _, ⟨hc, ht, _, he⟩ => by
    simp only [words, allProper_append, allProper_cons]
    exact ⟨proper_fixed rfl, cond.words_proper hc, then_.words_proper ht, proper_fixed rfl,
      else_.words_proper he⟩
  | .while_ cond body _, ⟨hc, hb⟩ => by
    simp only [words, allProper_append, allProper_cons]
    exact ⟨proper_fixed rfl, cond.words_proper hc, body.words_proper hb⟩
  | .block stmts _, h => by
    simp only [words, allProper_append, allProper_cons]
    exact ⟨proper_fixed rfl, Stmt.allWords_proper stmts h, proper_fixed rfl, allProper_nil⟩
  | .call callee args _, ⟨hn, ha⟩ => by
    simp only [words, allProper_append, allProper_cons]
    exact ⟨proper_ident hn, proper_fixed rfl, Expr.listWords_proper args ha, proper_fixed rfl,
      proper_fixed rfl, allProper_nil⟩
  | .empty _, _ => List.forall_mem_singleton.2 (proper_fixed rfl)

theorem Stmt.allWords_proper : ∀ ss : List Stmt, Stmt.AllGrammatical ss →
    AllProper (Stmt.allWords ss)
  | [], _ => allProper_nil
  | s :: ss, ⟨hs, hss⟩ => allProper_append.2 ⟨s.words_proper hs, Stmt.allWords_proper ss hss⟩

end

theorem Param.listWords_proper (ps : List Param) (h : ∀ p ∈ ps, IsIdent p.name.name) :
    AllProper (Param.listWords ps) := by
  induction ps with
  | nil => exact allProper_nil
  | cons p ps ih =>
    obtain ⟨hp, hps⟩ := List.forall_mem_cons.1 h
    have hw : AllProper p.words := by
      simp only [Param.words, allProper_cons]
      exact ⟨proper_ident hp, proper_fixed rfl, proper_fixed p.type.name.isFixed_kind,
        allProper_nil⟩
    cases ps with
    | nil => exact hw
    | cons p' ps => exact allProper_append.2 ⟨hw, allProper_cons.2 ⟨proper_fixed rfl, ih hps⟩⟩

theorem Decl.words_proper (d : Decl) (h : d.Grammatical) : AllProper d.words := by
  cases d with
  | var isConst name value span =>
    simp only [words, allProper_append, allProper_cons]
    exact ⟨proper_fixed (declKind_isFixed isConst), proper_ident h.1, proper_fixed rfl,
      value.words_proper h.2.2, proper_fixed rfl, allProper_nil⟩
  | fun_ name params body result span =>
    obtain ⟨hn, hp, hb, hr⟩ := h
    have ht : AllProper (Result.typeWords result) := by
      cases result with
      | none => exact allProper_nil
      | some result =>
        simp only [Result.typeWords, allProper_cons]
        exact ⟨proper_fixed rfl, proper_fixed result.type.name.isFixed_kind, allProper_nil⟩
    have hret : AllProper (Result.returnWords result) := by
      cases result with
      | none => exact allProper_nil
      | some result =>
        simp only [Result.returnWords, allProper_append, allProper_cons]
        exact ⟨proper_fixed rfl, result.value.words_proper (hr _ rfl), proper_fixed rfl,
          allProper_nil⟩
    simp only [words, allProper_append, allProper_cons]
    exact ⟨proper_fixed rfl, proper_ident hn, proper_fixed rfl, Param.listWords_proper params hp,
      proper_fixed rfl, ht, proper_fixed rfl, Stmt.allWords_proper body hb, hret, proper_fixed rfl,
      allProper_nil⟩

theorem Program.words_proper (program : Program) (h : program.Grammatical) :
    AllProper program.words := by
  intro w hw
  obtain ⟨d, hd, hw⟩ := List.mem_flatMap.1 hw
  exact d.words_proper (h d hd) w hw

end Surface

end PZero
