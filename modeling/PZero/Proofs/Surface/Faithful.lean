import PZero.Proofs.Surface.Reading

namespace PZero

theorem BinaryOp.one_le_level (op : BinaryOp) : 1 ≤ op.level := by cases op <;> decide

theorem BinaryOp.level_le (op : BinaryOp) : op.level ≤ 5 := by cases op <;> decide

theorem BinaryOp.isRelational_iff {op : BinaryOp} : op.isRelational = true ↔ op.level = 3 := by
  simp [isRelational]

namespace Surface

open Reading
open Token (fixed InClass IsIdent)

theorem binaryOp?_eq_some {kind : Token.Kind} {op : BinaryOp} :
    binaryOp? kind = some op ↔ kind = op.kind := by
  cases kind <;> cases op <;> simp [binaryOp?, BinaryOp.kind]

section Expressions

/-- An expression was read that binds at least as tight as a level. -/
structure ReadsExpr (level : Nat) (r : Reader) (e : Expr) (r' : Reader) : Prop where
  covers : Covers r e.words [e.node] e.span r'
  grammatical : e.Grammatical
  level : level ≤ e.level

/-- An operator of a level or above does not follow. -/
def StopsBelow (level : Nat) (r : Reader) : Prop :=
  ∀ op, binaryOp? r.current.kind = some op → op.level < level

/-- The operator that follows, if any, takes an operand of a level. -/
def Continues (level : Nat) (r : Reader) : Prop :=
  ∀ op, binaryOp? r.current.kind = some op → op.TakesLeft level

theorem continues_operand (r : Reader) {level : Nat} (h : 6 ≤ level) : Continues level r := by
  intro op _
  have := op.level_le
  exact ⟨by omega, fun _ ↦ by omega⟩

theorem ensures_token {tok : Token} {kind : Token.Kind} {e : Expr} (hk : tok.kind = kind)
    (hne : kind ≠ .endOfFile) (hs : e.span = tok.span) (hn : e.node = .mk e.span e.words [])
    (he : InClass tok.lexeme kind →
      e.words = [(kind, tok.lexeme)] ∧ e.Grammatical ∧ e.level = 6) :
    Ensures (do discard advance; return e) fun r₁ e r₂ ↦
      ∀ r, Sees r tok r₁ → ReadsExpr 6 r e r₂ := by
  refine (ensures_seen hne hk).bind fun _ ↦ .pure fun r₁ r₀ h r hat ↦ ?_
  obtain ⟨hw, hg, hl⟩ := he (hat.inClass hk)
  refine ⟨?_, hg, hl.ge⟩
  rw [hn, hs, hw]
  exact (h r hat).node

theorem Expr.level_le (e : Expr) : e.level ≤ 6 := by
  cases e <;> simp only [Expr.level, Nat.le_refl, Nat.zero_le]
  exact Nat.le_succ_of_le (BinaryOp.level_le _)

mutual

theorem readOperand_ensures : ∀ bound, Ensures (readOperand bound) (ReadsExpr 6)
  | 0 => by
    rw [readOperand]
    exact ensures_tooDeep_at _
  | bound + 1 => by
    rw [readOperand]
    refine ensures_peek.bind fun tok ↦ ?_
    split <;> rename_i hk
    · refine (ensures_seen_ident hk).bind fun _ ↦ ensures_ifEat rfl ?_ (.pure ?_)
      · refine (readArgs_ensures bound).bind fun args ↦ ensures_get.bind fun _ ↦ .pure ?_
        rintro r₄ r₃ ⟨rfl, rfl, -⟩ r₂ ⟨hargs, hg⟩ r₁ hopen r₀ hname r hat
        have hc := hat.inClass hk
        exact ⟨((hname r hat).toPrevious (hopen.trans hargs) (by simp)).node, ⟨hc, hg⟩,
          Nat.le_refl _⟩
      · intro r₁ _ r₀ hname r hat
        have hc := hat.inClass hk
        exact ⟨hname r hat, hc, Nat.le_refl _⟩
    · exact ensures_token hk (by decide) rfl rfl fun hc ↦ ⟨rfl, hc, rfl⟩
    · exact ensures_token hk (by decide) rfl rfl fun hc ↦ ⟨rfl, hc, rfl⟩
    · exact ensures_token hk (by decide) rfl rfl fun hc ↦ ⟨rfl, hc, rfl⟩
    · exact ensures_token hk (by decide) rfl rfl fun hc ↦
        ⟨by rw [Token.eq_spelling rfl hc]; rfl, trivial, rfl⟩
    · exact ensures_token hk (by decide) rfl rfl fun hc ↦
        ⟨by rw [Token.eq_spelling rfl hc]; rfl, trivial, rfl⟩
    · refine (ensures_seen_fixed rfl hk).bind fun _ ↦ (readExpr_ensures bound).bind fun inner ↦
        (ensures_fixed rfl _).bind fun _ ↦ .pure ?_
      intro r₃ r₂ hclose r₁ hinner r₀ hopen r hat
      exact ⟨((hopen r hat).through hinner.covers.lays hclose).node, hinner.grammatical,
        Nat.le_refl _⟩
    · exact readSigned_ensures bound _ tok hk
    · exact readSigned_ensures bound _ tok hk
    · exact readSigned_ensures bound _ tok hk
    · exact (ensures_report _).bind fun _ ↦ .pure fun _ _ h ↦ h.elim

theorem readSigned_ensures : ∀ bound (op : UnaryOp) (tok : Token), tok.kind = op.kind →
    Ensures (readSigned bound op tok) fun r₁ e r₂ ↦ ∀ r, Sees r tok r₁ → ReadsExpr 6 r e r₂
  | 0, _, _, _ => by
    rw [readSigned]
    exact ensures_tooDeep _
  | bound + 1, op, tok, hk => by
    rw [readSigned]
    refine (ensures_seen_fixed op.isFixed_kind hk).bind fun _ ↦
      (readOperand_ensures bound).bind fun operand ↦ .pure ?_
    intro r₂ r₁ hoperand r₀ hop r hat
    have hop := hop r hat
    rw [fixed, UnaryOp.spelling_kind] at hop
    exact ⟨(hop.join hoperand.covers).node,
      ⟨Nat.le_antisymm operand.level_le hoperand.level, hoperand.grammatical⟩, Nat.le_refl _⟩

theorem readBinary_ensures : ∀ bound level, 1 ≤ level → level ≤ 6 →
    Ensures (readBinary bound level) fun r e r' ↦ ReadsExpr level r e r' ∧ StopsBelow level r'
  | 0, _, _, _ => by
    rw [readBinary]
    exact ensures_tooDeep_at _
  | bound + 1, level, h1, h6 => by
    rw [readBinary]
    refine (readOperand_ensures bound).bind fun left ↦
      (readBinaryRest_ensures bound level left h1).mono fun r₁ e r₂ h r hleft ↦ ?_
    exact h r ⟨hleft.covers, hleft.grammatical, h6.trans hleft.level⟩
      (continues_operand r₁ hleft.level)

/-- The loop carries a left operand that the operator ahead, if any, may take. -/
theorem readBinaryRest_ensures : ∀ bound level left, 1 ≤ level →
    Ensures (readBinaryRest bound level left) fun r e r' ↦ ∀ start,
      ReadsExpr level start left r → Continues left.level r →
        ReadsExpr level start e r' ∧ StopsBelow level r'
  | 0, _, _, _ => by
    rw [readBinaryRest]
    exact ensures_tooDeep _
  | bound + 1, level, left, h1 => by
    rw [readBinaryRest]
    refine ensures_peek.bind fun tok ↦ ?_
    have hdone : (∀ op, binaryOp? tok.kind = some op → op.level < level) →
        Ensures (pure left : Reading Expr) fun r₁ e r₂ ↦ ∀ r, Sees r tok r₁ → ∀ start,
          ReadsExpr level start left r → Continues left.level r →
            ReadsExpr level start e r₂ ∧ StopsBelow level r₂ := by
      refine fun hlow ↦ .pure ?_
      rintro r₁ r ⟨rfl, rfl, -⟩ start h _
      exact ⟨h, hlow⟩
    split
    · rename_i hnone
      exact hdone fun op hop ↦ absurd (hnone.symm.trans hop) (Option.some_ne_none op).symm
    rename_i op hop
    refine .ite (fun hlow ↦ hdone fun op' hop' ↦ ?_) fun hhigh ↦ ?_
    · rwa [← Option.some_inj.1 (hop.symm.trans hop')]
    have h1' := op.one_le_level
    have h5' := op.level_le
    refine (ensures_seen_fixed op.isFixed_kind (binaryOp?_eq_some.1 hop)).bind fun _ ↦
      (readBinary_ensures bound (op.level + 1) (by omega) (by omega)).bind fun right ↦ ?_
    have hrest : Ensures
        (readBinaryRest bound level (.binary op left right (left.span.join right.span)))
        fun r₁ e r₂ ↦ (op.isRelational →
            ∀ op', binaryOp? r₁.current.kind = some op' → ¬op'.isRelational) →
          ∀ r₀, (ReadsExpr (op.level + 1) r₀ right r₁ ∧ StopsBelow (op.level + 1) r₁) →
          ∀ r, (∀ rs, Sees rs tok r → Covers rs [fixed op.kind] [] tok.span r₀) →
          ∀ rs, Sees rs tok r → ∀ start,
            ReadsExpr level start left rs → Continues left.level rs →
              ReadsExpr level start e r₂ ∧ StopsBelow level r₂ := by
      refine (readBinaryRest_ensures bound level _ h1).mono ?_
      rintro r₁ e r₂ h hrel r₀ ⟨hright, hstop⟩ r hsign rs hat start hleft hcont
      have hsign := hsign rs hat
      rw [fixed, BinaryOp.spelling_kind] at hsign
      refine h start ⟨(hleft.covers.through hsign.lays hright.covers).node,
        ⟨hcont op (hat.1 ▸ hop), hright.level, hleft.grammatical, hright.grammatical⟩,
        Nat.le_of_not_lt hhigh⟩ fun op' hop' ↦ ?_
      have hlt := hstop op' hop'
      refine ⟨Nat.le_of_lt_succ hlt, fun hr' ↦ ?_⟩
      -- an operator of the same level would be a second comparison
      have hne : op.level ≠ 3 := fun h3 ↦ hrel (BinaryOp.isRelational_iff.2 h3) op' hop' hr'
      have := BinaryOp.isRelational_iff.1 hr'
      change op'.level < op.level
      omega
    refine .ite (fun _ ↦ ensures_peek.bind fun next ↦ .ite (fun _ ↦ ?_) fun hnext ↦ ?_)
      fun hnot ↦ ?_
    · exact (ensures_report _).bind fun _ ↦ hrest.mono fun _ _ _ _ _ hf ↦ hf.elim
    · refine hrest.mono ?_
      rintro r₁ e r₂ h r₀ ⟨rfl, rfl, -⟩
      refine h fun _ op' hop' hr' ↦ ?_
      simp [hop', hr'] at hnext
    · exact hrest.mono fun r₁ e r₂ h ↦ h fun hr ↦ absurd hr hnot

theorem readExpr_ensures : ∀ bound, Ensures (readExpr bound) (ReadsExpr 0)
  | 0 => by
    rw [readExpr]
    exact ensures_tooDeep_at _
  | bound + 1 => by
    rw [readExpr]
    refine (readBinary_ensures bound 1 (by omega) (by omega)).bind fun cond ↦
      ensures_ifEat rfl ?_ (.pure ?_)
    · refine (readExpr_ensures bound).bind fun then_ ↦ (ensures_skip rfl _).bind fun _ ↦
        (readExpr_ensures bound).bind fun else_ ↦ .pure ?_
      rintro r₅ r₄ helse r₃ hcolon r₂ hthen r₁ hquestion r ⟨hcond, -⟩
      have h := hcond.covers.through (hquestion.trans (hthen.covers.lays.trans hcolon)) helse.covers
      have hw : cond.words ++
          ([fixed .question] ++ (then_.words ++ [fixed .colon]) ++ else_.words) =
          (Expr.conditional cond then_ else_ (cond.span.join else_.span)).words := by
        simp [Expr.words]
      rw [hw] at h
      exact ⟨h.node, ⟨hcond.level, hcond.grammatical, hthen.grammatical, helse.grammatical⟩,
        Nat.zero_le _⟩
    · rintro r₂ - r ⟨hcond, -⟩
      exact ⟨hcond.covers, hcond.grammatical, Nat.zero_le _⟩

theorem readArgs_ensures : ∀ bound, Ensures (readArgs bound) fun r args r' ↦
    Lays r (Expr.listWords args ++ [fixed .closeParen]) (Expr.listNodes args) r' ∧
      Expr.AllGrammatical args
  | 0 => by
    rw [readArgs]
    exact ensures_tooDeep _
  | bound + 1 => by
    rw [readArgs]
    refine ensures_peek.bind fun tok ↦ .ite (fun hk ↦ ?_) fun _ ↦ ?_
    · refine (ensures_seen_fixed rfl hk).bind fun _ ↦ .pure ?_
      exact fun _ _ h r hat ↦ ⟨(h r hat).lays, trivial⟩
    · refine (readArgList_ensures bound).bind fun args ↦ (ensures_skip rfl _).bind fun _ ↦ .pure ?_
      rintro r₂ r₁ hclose r₀ ⟨-, hargs, hg⟩ r ⟨-, rfl, -⟩
      have h := hargs.trans hclose
      rw [List.append_nil] at h
      exact ⟨h, hg⟩

theorem readArgList_ensures : ∀ bound, Ensures (readArgList bound) fun r args r' ↦
    args ≠ [] ∧ Lays r (Expr.listWords args) (Expr.listNodes args) r' ∧ Expr.AllGrammatical args
  | 0 => by
    rw [readArgList]
    exact ensures_tooDeep _
  | bound + 1 => by
    rw [readArgList]
    refine (readExpr_ensures bound).bind fun first ↦ ensures_ifEat rfl ?_ (.pure ?_)
    · refine (readArgList_ensures bound).bind fun rest ↦ .pure ?_
      rintro r₃ r₂ ⟨hne, hrest, hg⟩ r₁ hcomma r hfirst
      refine ⟨List.cons_ne_nil _ _, ?_, hfirst.grammatical, hg⟩
      cases rest with
      | nil => exact absurd rfl hne
      | cons e es => exact hfirst.covers.lays.trans (hcomma.trans hrest)
    · intro r₁ _ r hfirst
      exact ⟨List.cons_ne_nil _ _, hfirst.covers.lays, hfirst.grammatical, trivial⟩

end

end Expressions

section Statements

theorem ensures_keyword {kind : Token.Kind} (hf : kind.isFixed = true) :
    Ensures advance fun r t r' ↦ r.current.kind = kind →
      Covers r [fixed kind] [] t.span r' := by
  refine ensures_advance.mono ?_
  rintro r t r' ⟨rfl, hc, h⟩ hk
  have h := h (hk ▸ ne_endOfFile hf)
  rwa [word_of_inClass hf hk hc] at h

/-- A statement was read, and no `else` follows that would belong to it. -/
structure ReadsStmt (r : Reader) (s : Stmt) (r' : Reader) : Prop where
  covers : Covers r s.words [s.node] s.span r'
  grammatical : s.Grammatical
  closed : s.takesElse = true → r'.current.kind ≠ .elseKw

theorem ReadsStmt.of_covers {r r' : Reader} {s : Stmt}
    (h : Covers r s.words [s.node] s.span r') (hg : s.Grammatical) (he : s.takesElse = false) :
    ReadsStmt r s r' :=
  ⟨h, hg, fun ht ↦ absurd (he.symm.trans ht) Bool.false_ne_true⟩

def ReadsStmts (r : Reader) (ss : List Stmt) (r' : Reader) : Prop :=
  Lays r (Stmt.allWords ss) (Stmt.listNodes ss) r' ∧ Stmt.AllGrammatical ss

theorem readLocal_ensures (bound : Nat) (isConst : Bool) :
    Ensures (readLocal bound isConst) fun r s r' ↦ r.current.kind = declKind isConst →
      ReadsStmt r s r' := by
  rw [readLocal]
  refine (ensures_keyword (declKind_isFixed isConst)).bind fun tok ↦
    (ensures_expect (by decide) _).bind fun name ↦ (ensures_skip rfl _).bind fun _ ↦
    (readExpr_ensures bound).bind fun value ↦ (ensures_fixed rfl _).bind fun _ ↦ .pure ?_
  rintro r₅ r₄ hsemi r₃ hvalue r₂ heq r₁ ⟨hk, hc, hname⟩ r hword hkind
  have h := (hword hkind).through
    ((hname.ident hk).lays.trans (heq.trans hvalue.covers.lays)) hsemi
  exact .of_covers h.node ⟨hc, hvalue.grammatical⟩ rfl

theorem ensures_stmts {ends : Token → Reader → Prop} [∀ tok r, Decidable (ends tok r)]
    {first : Reading Stmt} {rest : Reading (List Stmt)} (hfirst : Ensures first ReadsStmt)
    (hrest : Ensures rest ReadsStmts) :
    Ensures (do
      let tok ← peek
      let r ← get
      if ends tok r then return []
      else
        let s ← first
        let ss ← rest
        return s :: ss) ReadsStmts := by
  refine ensures_peek.bind fun _ ↦ ensures_get.bind fun _ ↦ .ite (fun _ ↦ .pure ?_) fun _ ↦ ?_
  · rintro r₁ _ ⟨rfl, rfl, -⟩ r ⟨-, rfl, -⟩
    exact ⟨Lays.refl _, trivial⟩
  · refine hfirst.bind fun s ↦ hrest.bind fun ss ↦ .pure ?_
    rintro r₃ r₂ ⟨hss, hg⟩ r₁ hs r₀ ⟨-, rfl, -⟩ r ⟨-, rfl, -⟩
    exact ⟨hs.covers.lays.trans hss, hs.grammatical, hg⟩

mutual

theorem readStmt_ensures : ∀ bound, Ensures (readStmt bound) ReadsStmt
  | 0 => by
    rw [readStmt]
    exact ensures_tooDeep_at _
  | bound + 1 => by
    rw [readStmt]
    refine ensures_peek.bind fun tok ↦ ?_
    have hlocal : ∀ isConst, tok.kind = declKind isConst →
        Ensures (readLocal bound isConst) fun r₁ s r₂ ↦
          ∀ r, Sees r tok r₁ → ReadsStmt r s r₂ := by
      intro isConst hk
      refine (readLocal_ensures bound isConst).mono ?_
      rintro r₁ s r₂ h r ⟨rfl, rfl, -⟩
      exact h hk
    split <;> rename_i hk
    · exact hlocal true hk
    · exact hlocal false hk
    · refine (ensures_seen_fixed rfl hk).bind fun _ ↦ (readExpr_ensures bound).bind fun cond ↦
        (readStmt_ensures bound).bind fun then_ ↦ ensures_ifEat rfl ?_ (.pure ?_)
      · refine (readStmt_ensures bound).bind fun else_ ↦ .pure ?_
        intro r₅ r₄ helse r₃ hkw r₂ hthen r₁ hcond r₀ hif r hat
        -- an `if` without `else` at the end of the arm would have taken this one
        have htakes : then_.takesElse = false := by
          cases he : then_.takesElse with
          | false => rfl
          | true => exact absurd (congrArg Prod.fst hkw.head) (hthen.closed he)
        have h := ((hif r hat).through hcond.covers.lays hthen.covers).through hkw helse.covers
        have hw : [fixed .ifKw] ++ (cond.words ++ then_.words) ++ ([fixed .elseKw] ++ else_.words) =
            (Stmt.if_ cond then_ (some else_) ((tok.span.join then_.span).join
              else_.span)).words := by
          simp [Stmt.words]
        rw [hw] at h
        exact ⟨h.node, ⟨hcond.grammatical, hthen.grammatical, htakes, helse.grammatical⟩,
          helse.closed⟩
      · intro r₃ hne r₂ hthen r₁ hcond r₀ hif r hat
        exact ⟨((hif r hat).through hcond.covers.lays hthen.covers).node,
          ⟨hcond.grammatical, hthen.grammatical⟩, fun _ ↦ hne⟩
    · refine (ensures_seen_fixed rfl hk).bind fun _ ↦ (readExpr_ensures bound).bind fun cond ↦
        (readStmt_ensures bound).bind fun body ↦ .pure ?_
      intro r₃ r₂ hbody r₁ hcond r₀ hwhile r hat
      exact ⟨((hwhile r hat).through hcond.covers.lays hbody.covers).node,
        ⟨hcond.grammatical, hbody.grammatical⟩, hbody.closed⟩
    · refine (ensures_seen_fixed rfl hk).bind fun _ ↦ (readBlock_ensures bound).bind fun stmts ↦
        (ensures_fixed rfl _).bind fun _ ↦ .pure ?_
      rintro r₃ r₂ hclose r₁ ⟨hstmts, hg⟩ r₀ hopen r hat
      have h := (hopen r hat).through hstmts hclose
      rw [List.append_nil] at h
      exact .of_covers h.node hg rfl
    · refine (ensures_seen_fixed rfl hk).bind fun _ ↦ .pure ?_
      exact fun _ _ h r hat ↦ .of_covers (h r hat).node trivial rfl
    · refine (ensures_seen_ident hk).bind fun _ ↦ ensures_ifEat rfl ?_ (ensures_ifEat rfl ?_ ?_)
      · refine (readArgs_ensures bound).bind fun args ↦ (ensures_fixed rfl _).bind fun _ ↦ .pure ?_
        rintro r₄ r₃ hsemi r₂ ⟨hargs, hg⟩ r₁ hopen r₀ hname r hat
        have hc := hat.inClass hk
        have h := (hname r hat).through (hopen.trans hargs) hsemi
        rw [List.append_assoc, List.append_assoc, List.append_nil] at h
        exact .of_covers h.node ⟨hc, hg⟩ rfl
      · refine (readExpr_ensures bound).bind fun value ↦ (ensures_fixed rfl _).bind fun _ ↦ .pure ?_
        intro r₄ r₃ hsemi r₂ hvalue r₁ heq _ r₀ hname r hat
        have hc := hat.inClass hk
        have h := (hname r hat).through (heq.trans hvalue.covers.lays) hsemi
        exact .of_covers h.node ⟨hc, hvalue.grammatical⟩ rfl
      · exact (ensures_report _).bind fun _ ↦ .pure fun _ _ h ↦ h.elim
    · exact (ensures_report _).bind fun _ ↦ ensures_take.bind fun _ ↦ .pure fun _ _ _ _ h ↦ h.elim

theorem readBlock_ensures : ∀ bound, Ensures (readBlock bound) ReadsStmts
  | 0 => by
    rw [readBlock]
    exact ensures_tooDeep _
  | bound + 1 => by
    rw [readBlock]
    exact ensures_stmts (readStmt_ensures bound) (readBlock_ensures bound)

end

theorem readBody_ensures : ∀ bound, Ensures (readBody bound) ReadsStmts
  | 0 => by
    rw [readBody]
    exact ensures_tooDeep _
  | bound + 1 => by
    rw [readBody]
    exact ensures_stmts (readStmt_ensures bound) (readBody_ensures bound)

end Statements

section Declarations

theorem readType_ensures : Ensures readType fun r t r' ↦
    Covers r [fixed t.name.kind] [t.node] t.span r' := by
  rw [readType]
  refine ensures_peek.bind fun tok ↦ ?_
  have htype : ∀ name : TypeName, tok.kind = name.kind →
      Ensures (do discard advance; return (⟨name, tok.span⟩ : TypeRef)) fun r₁ t r₂ ↦
        ∀ r, Sees r tok r₁ → Covers r [fixed t.name.kind] [t.node] t.span r₂ := by
    intro name hk
    refine (ensures_seen_fixed name.isFixed_kind hk).bind fun _ ↦ .pure ?_
    exact fun _ _ h r hat ↦ (h r hat).node
  split <;> rename_i hk
  · exact htype .int hk
  · exact htype .float hk
  · exact htype .bool hk
  · exact (ensures_report _).bind fun _ ↦ .pure fun _ _ h ↦ h.elim

theorem readParams_ensures : ∀ bound, Ensures (readParams bound) fun r ps r' ↦
    ps ≠ [] ∧ Lays r (Param.listWords ps) (ps.flatMap Param.nodes) r' ∧
      ∀ p ∈ ps, IsIdent p.name.name
  | 0 => by
    rw [readParams]
    exact ensures_tooDeep _
  | bound + 1 => by
    rw [readParams]
    refine (ensures_expect (by decide) _).bind fun name ↦ (ensures_skip rfl _).bind fun _ ↦
      readType_ensures.bind fun type ↦ ensures_ifEat rfl ?_ (.pure ?_)
    · refine (readParams_ensures bound).bind fun rest ↦ .pure ?_
      rintro r₅ r₄ ⟨hne, hrest, hg⟩ r₃ hcomma r₂ htype r₁ hcolon r ⟨hk, hc, hname⟩
      refine ⟨List.cons_ne_nil _ _, ?_, List.forall_mem_cons.2 ⟨hc, hg⟩⟩
      cases rest with
      | nil => exact absurd rfl hne
      | cons p ps =>
        exact (hname.ident hk).lays.trans (hcolon.trans (htype.lays.trans (hcomma.trans hrest)))
    · rintro r₃ - r₂ htype r₁ hcolon r ⟨hk, hc, hname⟩
      exact ⟨List.cons_ne_nil _ _, (hname.ident hk).lays.trans (hcolon.trans htype.lays),
        List.forall_mem_singleton.2 hc⟩

def ReadsValue (P : Expr → Prop) (r : Reader) (v : Option Expr) (r' : Reader) : Prop :=
  ∃ e, v = some e ∧ Covers r e.words [e.node] e.span r' ∧ P e ∧ e.Grammatical

theorem readNumber_ensures : Ensures readNumber (ReadsValue Expr.IsNumber) := by
  rw [readNumber]
  refine ensures_peek.bind fun tok ↦ ?_
  split <;> rename_i hk
  · refine (ensures_seen (by decide) hk).bind fun _ ↦ .pure fun _ _ h r hat ↦ ?_
    have hc := hat.inClass hk
    exact ⟨_, rfl, (h r hat).node, hc, hc⟩
  · refine (ensures_seen (by decide) hk).bind fun _ ↦ .pure fun _ _ h r hat ↦ ?_
    have hc := hat.inClass hk
    exact ⟨_, rfl, (h r hat).node, hc.1, hc⟩
  · exact (ensures_report _).bind fun _ ↦ .pure fun _ _ h ↦ h.elim

theorem isInitializer_of_isNumber {e : Expr} (h : e.IsNumber) : e.IsInitializer := by
  cases e <;> first | exact h | exact h.elim

theorem level_of_isNumber {e : Expr} (h : e.IsNumber) : e.level = 6 := by
  cases e <;> first | rfl | exact h.elim

theorem readInitializer_ensures : Ensures readInitializer (ReadsValue Expr.IsInitializer) := by
  rw [readInitializer]
  refine ensures_peek.bind fun tok ↦ ?_
  have hbool : ∀ value : Bool, tok.kind = (if value then .trueKw else .falseKw) →
      Ensures (do discard advance; return some (.bool value tok.span)) fun r₁ v r₂ ↦
        ∀ r, Sees r tok r₁ → ReadsValue Expr.IsInitializer r v r₂ := by
    intro value hk
    have hf : Token.Kind.isFixed (if value then .trueKw else .falseKw) = true := by
      cases value <;> rfl
    refine (ensures_seen_fixed hf hk).bind fun _ ↦ .pure ?_
    exact fun _ _ h r hat ↦ ⟨_, rfl, (h r hat).node, trivial, trivial⟩
  have hsigned : ∀ op : UnaryOp, op ≠ .not → tok.kind = op.kind →
      Ensures (do
        discard advance
        return (← readNumber).map fun n ↦ .unary op n (tok.span.join n.span)) fun r₁ v r₂ ↦
        ∀ r, Sees r tok r₁ → ReadsValue Expr.IsInitializer r v r₂ := by
    intro op hop hk
    refine (ensures_seen_fixed op.isFixed_kind hk).bind fun _ ↦
      readNumber_ensures.bind fun v ↦ .pure ?_
    rintro r₂ r₁ ⟨n, rfl, hn, hnum, hg⟩ r₀ h r hat
    have h := h r hat
    rw [fixed, UnaryOp.spelling_kind] at h
    exact ⟨_, rfl, (h.join hn).node, ⟨hop, hnum⟩, level_of_isNumber hnum, hg⟩
  split <;> rename_i hk
  · exact hbool true hk
  · exact hbool false hk
  · exact hsigned .identity (by decide) hk
  · exact hsigned .negate (by decide) hk
  · refine readNumber_ensures.mono ?_
    rintro r₁ v r₂ ⟨e, he, hw, hnum, hg⟩ r ⟨-, rfl, -⟩
    exact ⟨e, he, hw, isInitializer_of_isNumber hnum, hg⟩

def ReadsDecl (r : Reader) (d : Option Decl) (r' : Reader) : Prop :=
  ∃ x, d = some x ∧ Covers r x.words [x.node] x.span r' ∧ x.Grammatical

theorem readVar_ensures (isConst : Bool) : Ensures (readVar isConst) fun r d r' ↦
    r.current.kind = declKind isConst → ReadsDecl r d r' := by
  rw [readVar]
  refine (ensures_keyword (declKind_isFixed isConst)).bind fun tok ↦
    (ensures_expect (by decide) _).bind fun name ↦ .ite (fun hne ↦ .pure ?_) fun _ ↦ ?_
  · rintro r₁ r₀ ⟨hk, -⟩
    exact absurd hk hne
  · refine (ensures_skip rfl _).bind fun _ ↦ readInitializer_ensures.bind fun value ↦
      (ensures_fixed rfl _).bind fun _ ↦ .pure ?_
    rintro r₅ r₄ hsemi r₃ ⟨e, rfl, hvalue, hinit, hg⟩ r₂ heq r₁ ⟨hk, hc, hname⟩ r hword hkind
    have h := (hword hkind).through ((hname.ident hk).lays.trans (heq.trans hvalue.lays)) hsemi
    exact ⟨_, rfl, h.node, hc, hinit, hg⟩

theorem readResult_ensures (bound : Nat) (type : Option TypeRef) :
    Ensures (readResult bound type) fun r result r' ↦ result.map Result.type = type ∧
      Lays r (Result.returnWords result) (Result.valueNodes result) r' ∧
        ∀ x ∈ result, x.value.Grammatical := by
  cases type with
  | some type =>
    rw [readResult]
    refine (ensures_skip rfl _).bind fun _ ↦ (readExpr_ensures bound).bind fun value ↦
      (ensures_skip rfl _).bind fun _ ↦ .pure ?_
    intro r₃ r₂ hsemi r₁ hvalue r hreturn
    exact ⟨rfl, hreturn.trans (hvalue.covers.lays.trans hsemi), by simpa using hvalue.grammatical⟩
  | none =>
    rw [readResult]
    refine ensures_peek.bind fun _ ↦ .ite (fun _ ↦ ?_) fun _ ↦ .pure ?_
    · exact (ensures_report _).bind fun _ ↦ .pure fun _ _ h ↦ h.elim
    · rintro r₁ r ⟨-, rfl, -⟩
      exact ⟨rfl, Lays.refl _, by simp⟩

theorem readFun_ensures (bound : Nat) : Ensures (readFun bound) fun r d r' ↦
    r.current.kind = .funKw → ReadsDecl r d r' := by
  rw [readFun]
  refine (ensures_keyword (show Token.Kind.isFixed .funKw = true from rfl)).bind fun tok ↦
    (ensures_expect (by decide) _).bind fun name ↦ .ite (fun hne ↦ .pure ?_) fun _ ↦ ?_
  · rintro r₁ r₀ ⟨hk, -⟩
    exact absurd hk hne
  refine (ensures_skip rfl _).bind fun _ ↦ ensures_peek.bind fun next ↦
    .ite_bind (P := fun r ps r' ↦ Lays r (Param.listWords ps) (ps.flatMap Param.nodes) r' ∧
      ∀ p ∈ ps, IsIdent p.name.name) (fun _ ↦ .pure fun _ ↦ ⟨Lays.refl _, by simp⟩)
      (fun _ ↦ (readParams_ensures bound).mono fun _ _ _ h ↦ h.2) fun params ↦ ?_
  refine (ensures_skip rfl _).bind fun _ ↦ (ensures_eat rfl).bind fun b ↦ ?_
  refine .ite_bind (P := fun r type r' ↦ type.isSome = b ∧
      Lays r (type.map fun t : TypeRef ↦ fixed t.name.kind).toList
        (type.map TypeRef.node).toList r')
    (fun hb ↦ readType_ensures.bind fun type ↦ .pure fun _ _ h ↦ ⟨hb.symm, h.lays⟩)
    (fun hb ↦ .pure fun _ ↦ ⟨by simpa using hb, Lays.refl _⟩) fun type ↦ ?_
  refine (ensures_skip rfl _).bind fun _ ↦ (readBody_ensures bound).bind fun body ↦
    ensures_peek.bind fun _ ↦ ensures_get.bind fun s ↦ .ite (fun hfail ↦ .pure ?_) fun _ ↦ ?_
  · rintro r₁ r₀ ⟨rfl, -, hok⟩
    simp [hok] at hfail
  refine (readResult_ensures bound type).bind fun result ↦ (ensures_fixed rfl _).bind fun _ ↦
    ensures_get.bind fun s' ↦ .ite (fun hfail ↦ .pure ?_) fun _ ↦ .pure ?_
  · rintro r₁ r₀ ⟨rfl, -, hok⟩
    simp [hok] at hfail
  rintro r₁₂ r₁₁ ⟨-, rfl, -⟩ r₁₀ hclose r₉ ⟨hres, hreturn, hgr⟩ r₈ ⟨-, rfl, -⟩ r₇ ⟨-, rfl, -⟩ r₆
    ⟨hbody, hgb⟩ r₅ hopen r₄ ⟨hsome, htype⟩ r₃ ⟨hcolon, hsame⟩ r₂ hclosep r₁ ⟨hparams, hgp⟩ r₀
    ⟨-, rfl, -⟩ r hopenp rs ⟨hk, hc, hname⟩ rt hword hkind
  have hresult : Lays r₃ (Result.typeWords result) (Result.typeNodes result) r₅ := by
    subst hres
    cases result with
    | none =>
      obtain ⟨rfl, -⟩ := hsame (by simp [← hsome])
      exact htype
    | some result => exact (hcolon (by simp [← hsome])).trans htype
  have hfun := (hword hkind).through ((hname.ident hk).lays.trans (hopenp.trans (hparams.trans
    (hclosep.trans (hresult.trans (hopen.trans (hbody.trans hreturn))))))) hclose
  rw [List.append_nil] at hfun
  have hwords : [fixed .funKw] ++ ([(.ident, name.lexeme)] ++ ([fixed .openParen] ++
      (Param.listWords params ++ ([fixed .closeParen] ++ (Result.typeWords result ++
        ([fixed .openBrace] ++ (Stmt.allWords body ++ Result.returnWords result)))))) ++
      [fixed .closeBrace]) =
        (Decl.fun_ ⟨name.lexeme, name.span⟩ params body result default).words := by
    simp [Decl.words]
  rw [hwords] at hfun
  exact ⟨_, rfl, hfun.node, hc, hgp, hgb, hgr⟩

theorem skipToFun_ensures : ∀ bound, Ensures (skipToFun bound) fun _ _ _ ↦ True
  | 0 => by
    rw [skipToFun]
    exact ensures_giveUp.mono fun _ _ _ _ ↦ trivial
  | bound + 1 => by
    rw [skipToFun]
    refine ensures_peek.bind fun _ ↦ .ite (fun _ ↦ .pure fun _ _ _ ↦ trivial) fun _ ↦
      ensures_take.bind fun _ ↦ (skipToFun_ensures bound).mono fun _ _ _ _ _ _ _ _ ↦ trivial

theorem ensures_restart : Ensures (modify fun r : Reader ↦ { r with failed := false })
    fun r _ r' ↦ r' = { r with failed := false } := by
  intro r a r' hr hs
  cases hr
  exact ⟨hs, List.prefix_rfl, fun _ _ ↦ ⟨rfl, rfl⟩⟩

theorem readDecl_ensures (bound : Nat) : Ensures (readDecl bound) ReadsDecl := by
  rw [readDecl]
  refine ensures_restart.bind fun _ ↦ ensures_peek.bind fun tok ↦ ?_
  have hrest : ∀ decl : Option Decl, Ensures (do
      if (← get).failed then skipToFun bound
      return decl) fun r₁ d r₂ ↦ d = decl ∧ r₂ = r₁ := by
    intro decl
    refine ensures_get.bind fun s ↦ .ite (fun hf ↦ ?_) fun _ ↦ .pure ?_
    · refine (skipToFun_ensures bound).bind fun _ ↦ .pure ?_
      rintro r₂ r₁ - r₀ ⟨rfl, -, hn⟩
      exact absurd (hn.symm.trans hf) Bool.false_ne_true
    · rintro r₁ r₀ ⟨-, rfl, -⟩
      exact ⟨rfl, rfl⟩
  have hread : ∀ {kind : Token.Kind} {m : Reading (Option Decl)}, tok.kind = kind →
      (Ensures m fun r d r' ↦ r.current.kind = kind → ReadsDecl r d r') →
      Ensures (do
        let decl ← m
        if (← get).failed then skipToFun bound
        return decl) fun r₁ d r₂ ↦ ∀ r₀, Sees r₀ tok r₁ →
          ∀ r : Reader, r₀ = { r with failed := false } → ReadsDecl r d r₂ := by
    intro kind m hk hm
    refine hm.bind fun decl ↦ (hrest decl).mono ?_
    rintro r₂ d r₃ ⟨rfl, rfl⟩ r₁ hread r₀ ⟨htok, rfl, -⟩ r rfl
    exact hread (htok ▸ hk)
  split <;> rename_i hk
  · exact hread hk (readVar_ensures true)
  · exact hread hk (readVar_ensures false)
  · exact hread hk (readFun_ensures bound)
  · refine (ensures_report _).bind fun _ ↦ ensures_take.bind fun _ ↦ (hrest none).mono ?_
    exact fun _ _ _ _ _ _ _ h ↦ h.elim

theorem words_ne_nil (d : Decl) : d.words ≠ [] := by
  cases d <;> simp [Decl.words]

theorem readProgram_ensures : ∀ bound, Ensures (readProgram bound) fun r p r' ↦
    Lays r p.words (p.map Decl.node) r' ∧ p.Grammatical ∧ r'.current.kind = .endOfFile
  | 0 => by
    rw [readProgram]
    exact ensures_tooDeep _
  | bound + 1 => by
    rw [readProgram]
    refine ensures_peek.bind fun tok ↦ .ite (fun hk ↦ .pure ?_) fun _ ↦ ?_
    · rintro r₁ r ⟨rfl, rfl, -⟩
      exact ⟨Lays.refl _, List.forall_mem_nil _, hk⟩
    · refine (readDecl_ensures bound).bind fun decl ↦ (readProgram_ensures bound).bind fun rest ↦
        .pure ?_
      rintro r₂ r₁ ⟨hrest, hgr, hend⟩ r₀ ⟨d, rfl, hd, hg⟩ r ⟨-, rfl, -⟩
      have h := hd.lays.trans hrest
      have hwords : d.words ++ rest.words = Program.words ((some d).toList ++ rest) := by
        simp [Program.words]
      rw [hwords] at h
      exact ⟨h, List.forall_mem_cons.2 ⟨hg, hgr⟩, hend⟩

end Declarations

section Files

variable {f : File} {program : Program}

theorem parseFile_reads (h : parseFile f = (program, [])) :
    ∃ ts last, Token.scan f.input = ts ++ [last] ∧ last.word = (.endOfFile, []) ∧
      ts.map Token.word = program.words ∧
      (InOrder ts → Node.AllPlaced (program.map Decl.node) ts) ∧ program.Grammatical := by
  have hclosed := Token.scan_closed f.input
  rw [parseFile] at h
  generalize Token.scan f.input = tokens at h hclosed ⊢
  cases tokens with
  | nil =>
    obtain ⟨before, last, he, -⟩ := hclosed
    simp at he
  | cons first rest =>
    rcases hr : readProgram (8 * (first :: rest).length + 16) ⟨first, first, rest, false, []⟩ with
      ⟨p, r'⟩
    have hrun : parse (first :: rest) = (p, r'.errors) := by
      simp only [parse, StateT.run, hr]
    rw [hrun] at h
    obtain ⟨rfl, herr⟩ := Prod.mk.inj h
    obtain ⟨hready, -, hens⟩ := readProgram_ensures _ _ _ _ hr hclosed
    obtain ⟨-, ⟨ts, ⟨htook, -⟩, hwords, hplaced⟩, hg, hend⟩ := hens rfl herr
    obtain ⟨last, hlast, hword⟩ := List.map_eq_singleton_iff.1 (hready.words_end hend)
    exact ⟨ts, last, htook.trans (congrArg (ts ++ ·) hlast), hword, hwords, hplaced, hg⟩

/-- A text that is read without an error is, word for word, the program that is read from it. No
token of it is bad, and the program is grouped by the levels of its operators and by the nearest
`if` of each `else`. -/
theorem parseFile_faithful (f : File) (program : Program) (h : parseFile f = (program, [])) :
    (Token.scan f.input).map Token.word = program.words ++ [(.endOfFile, [])] ∧
      (∀ t ∈ Token.scan f.input, t.kind ≠ .bad) ∧ program.Grammatical := by
  obtain ⟨ts, last, hscan, hlast, hwords, -, hg⟩ := parseFile_reads h
  rw [hscan]
  refine ⟨by rw [List.map_append, hwords, List.map_singleton, hlast], fun t ht ↦ ?_, hg⟩
  rcases List.mem_append.1 ht with ht | ht
  · exact (program.words_proper hg t.word (hwords ▸ List.mem_map_of_mem ht)).1
  · rw [List.mem_singleton.1 ht, show last.kind = .endOfFile from congrArg Prod.fst hlast]
    decide

/-- A text with operators of several levels and an `else` behind two `if`s. -/
def grouped : File :=
  ⟨ascii "grouped.p0", ascii
    "fun f(a:Int):Int\x7bif a>1 if -a+2*a<3;else a=f(1);return a==0||a>1?2:3;\x7d"⟩

theorem grouped_faithful : ∃ program, parseFile grouped = (program, []) ∧
    (Token.scan grouped.input).map Token.word = program.words ++ [(.endOfFile, [])] ∧
      program.Grammatical := by
  have herr : (parseFile grouped).2 = [] := by decide +kernel
  have h : parseFile grouped = ((parseFile grouped).1, []) := by rw [← herr]
  obtain ⟨hw, -, hg⟩ := parseFile_faithful grouped _ h
  exact ⟨_, h, hw, hg⟩

theorem parseFile_shaped (h : parseFile f = (program, [])) : program.Shaped :=
  Program.Grammatical.shaped (parseFile_faithful f program h).2.2

end Files

end Surface

end PZero
