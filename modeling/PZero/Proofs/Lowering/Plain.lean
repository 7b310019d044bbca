import PZero.Proofs.IR.Plain
import PZero.Proofs.Lowering.Program
import PZero.Proofs.Typing.Scope

namespace PZero.Lowering

open IR Lower

structure Site.Plain (s : Site) : Prop where
  body : ∀ i ∈ s.function.body, i.isPlain = true
  scopes : ∀ x ∈ s.function.scopes.flatten, x.2.isPlain = true
  addresses : ∀ x ∈ s.module.addresses, x.2.isPlain = true

/-- A piece of lowering that keeps the site plain. `Q` holds of what it gives. -/
def Lower.Writes {α : Type} (code : Lower α) (Q : α → Prop) : Prop :=
  ∀ s a s', s.Plain → code s = .ok (a, s') → s'.Plain ∧ Q a

def isStem (stem : Bytes) : Bool := !stem.isEmpty && stem.all Symbol.isPlainStart

theorem isPlain_label {stem : Bytes} (h : isStem stem = true) (n : Nat) :
    Symbol.isPlain (stem ++ ascii "_" ++ Bytes.ofNat n) = true := by
  cases stem with
  | nil => cases h
  | cons b stem =>
    have hall : ∀ c ∈ b :: stem, Symbol.isPlainStart c = true := by simpa [isStem] using h
    have hrest : ∀ c ∈ stem ++ ascii "_" ++ Bytes.ofNat n,
        (Symbol.isPlainStart c || Bytes.isDigit c) = true := by
      simp only [List.mem_append]
      rintro c ((hc | hc) | hc)
      · rw [hall c (List.mem_cons_of_mem _ hc), Bool.true_or]
      · obtain rfl : c = 95 := List.mem_singleton.1 hc
        rfl
      · rw [Bytes.isDigit_of_mem_ofNat hc, Bool.or_true]
    rw [List.cons_append, List.cons_append, Symbol.isPlain, hall b List.mem_cons_self,
      List.all_eq_true.2 hrest, Bool.and_self, Bool.or_true]

theorem isSimple_typeOf {type : ValueType} {t : Ty} (h : typeOf type = .ok t) :
    t.isSimple = true := by
  cases type <;> cases h <;> rfl

theorem isSimple_resultType {result : Option Typed.Result} {t : Ty}
    (h : resultType result = .ok t) : t.isSimple = true := by
  cases result with
  | none =>
    cases h
    rfl
  | some result => exact isSimple_typeOf h

namespace Lower.Writes

variable {α β : Type} {Q : α → Prop}

theorem pure {a : α} (h : Q a) : Writes (Pure.pure a) Q := by
  intro s b s' hs he
  obtain ⟨rfl, rfl⟩ := Prod.mk.inj (pure_ok.1 he)
  exact ⟨hs, h⟩

theorem throw (c : Cause) : Writes (MonadExcept.throw c : Lower α) Q := by
  intro s b s' hs he
  exact (throw_ok.1 he).elim

theorem bind {code : Lower α} {f : α → Lower β} {R : β → Prop} (h : Writes code Q)
    (hf : ∀ a, Q a → Writes (f a) R) : Writes (code >>= f) R := by
  intro s b s' hs he
  obtain ⟨a, s₁, ha, hb⟩ := bind_ok.1 he
  obtain ⟨hs₁, hq⟩ := h s a s₁ hs ha
  exact hf a hq s₁ b s' hs₁ hb

theorem emit {i : Instr} (h : i.isPlain = true) : Writes (emit i) fun _ ↦ True := by
  intro s b s' hs he
  obtain ⟨-, rfl⟩ := Prod.mk.inj (emit_ok.1 he)
  refine ⟨⟨fun j hj ↦ ?_, hs.scopes, hs.addresses⟩, trivial⟩
  rcases List.mem_append.1 hj with hj | hj
  · exact hs.body j hj
  · rw [List.mem_singleton.1 hj]
    exact h

theorem condBr {cond : Operand} {yes no : Bytes} (h : cond.isPlain = true) :
    Writes (Lower.emit (.condBr cond yes no)) fun _ ↦ True :=
  emit h

theorem define {type : Ty} {make : Register → Instr} (ht : type.isSimple = true)
    (hm : ∀ r : Register, r.type = type → (make r).isPlain = true) :
    Writes (define (Draft.define type make)) fun x ↦ x.isPlain = true := by
  intro s b s' hs he
  obtain ⟨rfl, rfl⟩ := Prod.mk.inj (define_ok.1 he)
  refine ⟨⟨fun j hj ↦ ?_, hs.scopes, hs.addresses⟩, ?_⟩
  · rcases List.mem_append.1 hj with hj | hj
    · exact hs.body j hj
    · rw [List.mem_singleton.1 hj]
      exact hm _ rfl
  · exact ht

theorem newLabel {stem : String} (h : isStem (ascii stem) = true) :
    Writes (newLabel stem) fun label ↦ Symbol.isPlain label = true := by
  intro s b s' hs he
  obtain ⟨rfl, rfl⟩ := Prod.mk.inj (newLabel_ok.1 he)
  exact ⟨⟨hs.body, hs.scopes, hs.addresses⟩, isPlain_label h _⟩

theorem startBlock {label : Bytes} (h : Symbol.isPlain label = true) :
    Writes (startBlock label) fun _ ↦ True := by
  intro s b s' hs he
  obtain ⟨-, rfl⟩ := Prod.mk.inj (startBlock_ok.1 he)
  refine ⟨⟨fun j hj ↦ ?_, hs.scopes, hs.addresses⟩, trivial⟩
  rcases List.mem_append.1 hj with hj | hj
  · exact hs.body j hj
  · rw [List.mem_singleton.1 hj]
    exact h

theorem currentLabel : Writes currentLabel fun _ ↦ True := by
  intro s b s' hs he
  obtain ⟨-, rfl⟩ := Prod.mk.inj (currentLabel_ok.1 he)
  exact ⟨hs, trivial⟩

theorem openScope : Writes openScope fun _ ↦ True := by
  intro s b s' hs he
  obtain ⟨-, rfl⟩ := Prod.mk.inj (openScope_ok.1 he)
  exact ⟨⟨hs.body, hs.scopes, hs.addresses⟩, trivial⟩

theorem closeScope : Writes closeScope fun _ ↦ True := by
  intro s b s' hs he
  obtain ⟨-, hr⟩ := closeScope_ok.1 he
  obtain ⟨-, rfl⟩ := Prod.mk.inj hr
  refine ⟨⟨hs.body, fun x hx ↦ hs.scopes x ?_, hs.addresses⟩, trivial⟩
  obtain ⟨scope, hscope, hx⟩ := List.mem_flatten.1 hx
  exact List.mem_flatten.2 ⟨scope, List.mem_of_mem_tail hscope, hx⟩

theorem bindName (name : Bytes) {x : Operand} (h : x.isPlain = true) :
    Writes (bindName name x) fun _ ↦ True := by
  intro s b s' hs he
  obtain ⟨-, rfl⟩ := Prod.mk.inj (bindName_ok.1 he)
  refine ⟨⟨?_, fun y hy ↦ ?_, hs.addresses⟩, trivial⟩
  · rw [Site.bind_body]
    exact hs.body
  · rw [Site.bind_scopes] at hy
    rcases List.mem_cons.1 hy with rfl | hy
    · exact h
    · exact hs.scopes y hy

theorem address (name : Bytes) : Writes (address name) fun x ↦ x.isPlain = true := by
  intro s b s' hs he
  obtain ⟨x, hx, hr⟩ := address_ok.1 he
  obtain ⟨rfl, rfl⟩ := Prod.mk.inj hr
  refine ⟨hs, ?_⟩
  rw [Draft.operand, Typing.findSome?_lookup] at hx
  cases hl : s'.function.scopes.flatten.lookup name with
  | some y =>
    simp only [hl, Except.ok.injEq] at hx
    obtain ⟨l₁, l₂, hscope, -⟩ := List.lookup_eq_some_iff.1 hl
    exact hx ▸ hs.scopes (name, y) (by simp [hscope])
  | none =>
    cases ha : s'.module.address? name with
    | none => simp [hl, ha] at hx
    | some c =>
      simp only [hl, ha, Except.ok.injEq] at hx
      obtain ⟨l₁, l₂, haddr, -⟩ := List.lookup_eq_some_iff.1 ha
      exact hx ▸ hs.addresses (name, c) (by simp [haddr])

theorem phi {first : Incoming} {rest : List Incoming}
    (h : ∀ i ∈ first :: rest, i.value.isPlain = true) :
    Writes (phi (first :: rest)) fun x ↦ x.isPlain = true := by
  have ht := Operand.isSimple_type (h first List.mem_cons_self)
  have hd : Writes (Lower.define (Draft.define first.value.type (.phi · (first :: rest))))
      fun x ↦ x.isPlain = true := by
    refine define ht fun r hr ↦ ?_
    rw [Instr.isPlain, hr, ht, List.all_eq_true.2 h]
    rfl
  exact hd

theorem intern (text : Bytes) : Writes (intern text) fun c ↦ c.isPlain = true := by
  intro s b s' hs he
  obtain ⟨rfl, rfl⟩ := Prod.mk.inj (intern_ok.1 he)
  obtain ⟨n, texts, hi, -⟩ := s.module.intern_eq text
  rw [Site.intern, hi]
  exact ⟨⟨hs.body, hs.scopes, hs.addresses⟩, rfl⟩

theorem typeOf (type : ValueType) :
    Writes (liftM (typeOf type) : Lower Ty) fun ty ↦ ty.isSimple = true := by
  intro s b s' hs he
  obtain ⟨ty, ht, hr⟩ := lift_ok.1 he
  obtain ⟨rfl, rfl⟩ := Prod.mk.inj hr
  exact ⟨hs, isSimple_typeOf ht⟩

end Lower.Writes

theorem comparison?_known {op : BinaryOp} {pred : IntPred} {pred' : FloatPred}
    (h : comparison? op = some (pred, pred')) :
    pred ∈ IntPred.known ∧ pred' ∈ FloatPred.known := by
  cases op <;> cases h <;> decide

theorem bin_writes {op : BinOp} {x y : Operand} (ho : op ∈ BinOp.known) (hx : x.isPlain = true)
    (hy : y.isPlain = true) : Writes (define (Draft.bin op x y)) fun z ↦ z.isPlain = true := by
  have ht := Operand.isSimple_type hx
  refine .define ht fun r hr ↦ ?_
  rw [Instr.isPlain, hr, ht, hx, hy, decide_eq_true ho]
  rfl

theorem lowerBinary_writes (op : BinaryOp) (type : ValueType) {x y : Operand}
    (hx : x.isPlain = true) (hy : y.isPlain = true) :
    Writes (lowerBinary op type x y) fun z ↦ z.isPlain = true := by
  have hi : ∀ p ∈ IntPred.known, Writes (define (Draft.icmp p x y)) fun z ↦ z.isPlain = true := by
    refine fun p hp ↦ .define rfl fun r hr ↦ ?_
    rw [Instr.isPlain, hr, hx, hy, decide_eq_true hp]
    rfl
  have hf : ∀ p ∈ FloatPred.known, Writes (define (Draft.fcmp p x y)) fun z ↦ z.isPlain = true := by
    refine fun p hp ↦ .define rfl fun r hr ↦ ?_
    rw [Instr.isPlain, hr, hx, hy, decide_eq_true hp]
    rfl
  unfold lowerBinary
  split
  case h_11 =>
    split
    · exact hi _ (comparison?_known ‹_›).1
    · exact hi _ (comparison?_known ‹_›).1
    · exact hf _ (comparison?_known ‹_›).2
    · exact .throw _
    · exact .throw _
  all_goals exact bin_writes (by decide) hx hy

theorem lowerUnary_writes (op : UnaryOp) (type : ValueType) {x : Operand}
    (hx : x.isPlain = true) : Writes (lowerUnary op type x) fun z ↦ z.isPlain = true := by
  unfold lowerUnary
  split
  · exact .pure hx
  · exact bin_writes (by decide) hx rfl
  · exact bin_writes (by decide) rfl hx
  · exact bin_writes (by decide) rfl hx
  · exact .throw _

theorem lowerLiteral_writes (value : Typed.Literal) :
    Writes (lowerLiteral value) fun x ↦ x.isPlain = true := by
  cases value with
  | string text =>
    refine (Writes.intern text).bind fun c hc ↦ .define rfl fun r hr ↦ ?_
    have ha : Operand.isPlain (.const c) = true := hc
    simp only [Instr.isPlain, ha, hr, Bool.and_true]
    rfl
  | bool value => exact .pure (by cases value <;> rfl)
  | int | float => exact .pure rfl

mutual

theorem lowerExpr_writes : ∀ e : Typed.Expr, Writes (lowerExpr e) fun x ↦ x.isPlain = true
  | .literal value => by
    rw [lowerExpr]
    exact lowerLiteral_writes value
  | .unary op operand => by
    rw [lowerExpr]
    exact (lowerExpr_writes operand).bind fun x hx ↦ lowerUnary_writes op operand.type hx
  | .unaryUnknown operand => by
    rw [lowerExpr]
    exact (lowerExpr_writes operand).bind fun x hx ↦ .throw _
  | .binary op left right => by
    rw [lowerExpr]
    refine (lowerExpr_writes left).bind fun x hx ↦ (lowerExpr_writes right).bind fun y hy ↦ ?_
    exact lowerBinary_writes op left.type hx hy
  | .conditional cond then_ else_ => by
    rw [lowerExpr]
    refine (lowerExpr_writes cond).bind fun c hc ↦ ?_
    refine (Writes.newLabel (by decide)).bind fun thenLabel ht ↦ ?_
    refine (Writes.newLabel (by decide)).bind fun elseLabel he ↦ ?_
    refine (Writes.newLabel (by decide)).bind fun mergeLabel hm ↦ ?_
    refine (Writes.condBr hc).bind fun _ _ ↦ (Writes.startBlock ht).bind fun _ _ ↦ ?_
    refine (lowerExpr_writes then_).bind fun x hx ↦ Writes.currentLabel.bind fun thenEnd _ ↦ ?_
    refine (Writes.emit rfl).bind fun _ _ ↦ (Writes.startBlock he).bind fun _ _ ↦ ?_
    refine (lowerExpr_writes else_).bind fun y hy ↦ Writes.currentLabel.bind fun elseEnd _ ↦ ?_
    refine (Writes.emit rfl).bind fun _ _ ↦ (Writes.startBlock hm).bind fun _ _ ↦ ?_
    exact .phi (List.forall_mem_cons.2 ⟨hx, List.forall_mem_singleton.2 hy⟩)
  | .ident type name => by
    rw [lowerExpr]
    refine (Writes.typeOf type).bind fun ty ht ↦ (Writes.address name).bind fun x hx ↦ ?_
    refine .define ht fun r hr ↦ ?_
    rw [Instr.isPlain, hr, ht, hx]
    rfl
  | .call type callee args => by
    rw [lowerExpr]
    refine (Writes.typeOf type).bind fun ty ht ↦ (lowerExprs_writes args).bind fun xs hxs ↦ ?_
    refine .define ht fun r hr ↦ ?_
    rw [Instr.isPlain, hr, ht, List.all_eq_true.2 hxs]
    rfl
  | .missing => by
    rw [lowerExpr]
    exact .throw _

theorem lowerExprs_writes : ∀ es : List Typed.Expr,
    Writes (lowerExprs es) fun xs ↦ ∀ x ∈ xs, x.isPlain = true
  | [] => by
    rw [lowerExprs]
    exact .pure (by simp)
  | e :: es => by
    rw [lowerExprs]
    refine (lowerExpr_writes e).bind fun x hx ↦ (lowerExprs_writes es).bind fun xs hxs ↦ ?_
    exact .pure (List.forall_mem_cons.2 ⟨hx, hxs⟩)

end

theorem alloca_writes {type : Ty} (h : type.isSimple = true) :
    Writes (define (Draft.alloca type)) fun x ↦ x.isPlain = true := by
  refine .define h fun r hr ↦ ?_
  rw [Instr.isPlain, hr, Ty.isSimple, h]
  rfl

theorem store_writes {x a : Operand} (hx : x.isPlain = true) (ha : a.isPlain = true) :
    Writes (emit (.store x a)) fun _ ↦ True :=
  .emit (by rw [Instr.isPlain, hx, ha]; rfl)

theorem lowerLocal_writes (name : Bytes) (value : Typed.Expr) :
    Writes (lowerLocal name value) fun _ ↦ True := by
  refine (lowerExpr_writes value).bind fun x hx ↦ (Writes.typeOf value.type).bind fun ty ht ↦ ?_
  refine (alloca_writes ht).bind fun slot hs ↦ (store_writes hx hs).bind fun _ _ ↦ ?_
  exact .bindName name hs

theorem lowerPrint_writes (value : Typed.Expr) : Writes (lowerPrint value) fun _ ↦ True := by
  refine (lowerExpr_writes value).bind fun x hx ↦ ?_
  have hcall : ∀ callee (y : Operand), y.isPlain = true →
      Writes (emit (.callVoid callee [y])) fun _ ↦ True := fun callee y hy ↦
    .emit (by simp only [Instr.isPlain, List.all_cons, hy, List.all_nil, Bool.and_self])
  split
  · have hz : Writes (define (Draft.zext x (.int 8))) fun y ↦ y.isPlain = true :=
      .define rfl fun r hr ↦ by rw [Instr.isPlain, hr, hx]; rfl
    exact hz.bind fun wide hw ↦ hcall _ wide hw
  · exact hcall _ x hx
  · exact hcall _ x hx
  · exact hcall _ x hx
  · exact .throw _

theorem lowerPrints_writes (es : List Typed.Expr) : Writes (lowerPrints es) fun _ ↦ True := by
  induction es with
  | nil => exact .pure trivial
  | cons e es ih => exact (lowerPrint_writes e).bind fun _ _ ↦ ih

mutual

theorem lowerStmt_writes : ∀ st : Typed.Stmt, Writes (lowerStmt st) fun _ ↦ True
  | .const name value => by
    rw [lowerStmt]
    exact lowerLocal_writes name value
  | .let_ name value => by
    rw [lowerStmt]
    exact lowerLocal_writes name value
  | .assign name value => by
    rw [lowerStmt]
    refine (lowerExpr_writes value).bind fun x hx ↦ (Writes.address name).bind fun a ha ↦ ?_
    exact store_writes hx ha
  | .if_ cond then_ none => by
    rw [lowerStmt]
    refine (lowerExpr_writes cond).bind fun c hc ↦ ?_
    refine (Writes.newLabel (by decide)).bind fun thenLabel ht ↦ ?_
    refine (Writes.newLabel (by decide)).bind fun mergeLabel hm ↦ ?_
    refine (Writes.condBr hc).bind fun _ _ ↦ (Writes.startBlock ht).bind fun _ _ ↦ ?_
    refine Writes.openScope.bind fun _ _ ↦ (lowerStmt_writes then_).bind fun _ _ ↦ ?_
    refine Writes.closeScope.bind fun _ _ ↦ (Writes.emit rfl).bind fun _ _ ↦ ?_
    exact .startBlock hm
  | .if_ cond then_ (some else_) => by
    rw [lowerStmt]
    refine (lowerExpr_writes cond).bind fun c hc ↦ ?_
    refine (Writes.newLabel (by decide)).bind fun thenLabel ht ↦ ?_
    refine (Writes.newLabel (by decide)).bind fun elseLabel he ↦ ?_
    refine (Writes.newLabel (by decide)).bind fun mergeLabel hm ↦ ?_
    refine (Writes.condBr hc).bind fun _ _ ↦ (Writes.startBlock ht).bind fun _ _ ↦ ?_
    refine Writes.openScope.bind fun _ _ ↦ (lowerStmt_writes then_).bind fun _ _ ↦ ?_
    refine Writes.closeScope.bind fun _ _ ↦ (Writes.emit rfl).bind fun _ _ ↦ ?_
    refine (Writes.startBlock he).bind fun _ _ ↦ Writes.openScope.bind fun _ _ ↦ ?_
    refine (lowerStmt_writes else_).bind fun _ _ ↦ Writes.closeScope.bind fun _ _ ↦ ?_
    exact (Writes.emit rfl).bind fun _ _ ↦ .startBlock hm
  | .while_ cond body => by
    rw [lowerStmt]
    refine (Writes.newLabel (by decide)).bind fun headLabel hh ↦ ?_
    refine (Writes.newLabel (by decide)).bind fun bodyLabel hb ↦ ?_
    refine (Writes.newLabel (by decide)).bind fun mergeLabel hm ↦ ?_
    refine (Writes.emit rfl).bind fun _ _ ↦ (Writes.startBlock hh).bind fun _ _ ↦ ?_
    refine (lowerExpr_writes cond).bind fun c hc ↦ (Writes.condBr hc).bind fun _ _ ↦ ?_
    refine (Writes.startBlock hb).bind fun _ _ ↦ Writes.openScope.bind fun _ _ ↦ ?_
    refine (lowerStmt_writes body).bind fun _ _ ↦ Writes.closeScope.bind fun _ _ ↦ ?_
    exact (Writes.emit rfl).bind fun _ _ ↦ .startBlock hm
  | .block stmts => by
    rw [lowerStmt]
    refine Writes.openScope.bind fun _ _ ↦ (lowerStmts_writes stmts).bind fun _ _ ↦ ?_
    exact .closeScope
  | .call callee args true => by
    rw [lowerStmt]
    refine (lowerPrints_writes args).bind fun _ _ ↦ ?_
    split
    · exact .emit rfl
    · exact .pure trivial
  | .call callee args false => by
    rw [lowerStmt]
    exact (lowerExprs_writes args).bind fun xs hxs ↦ .emit (List.all_eq_true.2 hxs)
  | .empty => by
    rw [lowerStmt]
    exact .pure trivial
  | .missing => by
    rw [lowerStmt]
    exact .throw _

theorem lowerStmts_writes : ∀ ss : List Typed.Stmt, Writes (lowerStmts ss) fun _ ↦ True
  | [] => by
    rw [lowerStmts]
    exact .pure trivial
  | st :: ss => by
    rw [lowerStmts]
    exact (lowerStmt_writes st).bind fun _ _ ↦ lowerStmts_writes ss

end

theorem lowerParams_writes {ps : List Typed.Param} {rs : List Register}
    (h : ∀ r ∈ rs, r.type.isSimple = true) : Writes (lowerParams ps rs) fun _ ↦ True := by
  induction ps generalizing rs with
  | nil => exact .pure trivial
  | cons p ps ih =>
    cases rs with
    | nil => exact .pure trivial
    | cons r rs =>
      obtain ⟨hr, hrs⟩ := List.forall_mem_cons.1 h
      have hx : Operand.isPlain (.reg r) = true := hr
      refine (alloca_writes hr).bind fun slot hs ↦ (store_writes hx hs).bind fun _ _ ↦ ?_
      exact (Writes.bindName p.name hs).bind fun _ _ ↦ ih hrs

theorem paramRegisters_simple {ps : List Typed.Param} {rs : List Register}
    (h : paramRegisters ps = .ok rs) : ∀ r ∈ rs, r.type.isSimple = true := by
  induction ps generalizing rs with
  | nil =>
    cases h
    simp
  | cons p ps ih =>
    obtain ⟨type, rs', ht, hr, rfl⟩ := paramRegisters_cons h
    exact List.forall_mem_cons.2 ⟨isSimple_typeOf ht, ih hr⟩

theorem lowerBody_writes {params : List Typed.Param} {registers : List Register}
    {body : List Typed.Stmt} {result : Option Typed.Result}
    (h : paramRegisters params = .ok registers) :
    Writes (lowerBody params registers body result) fun _ ↦ True := by
  unfold lowerBody
  refine Writes.openScope.bind fun _ _ ↦ ?_
  refine (lowerParams_writes (paramRegisters_simple h)).bind fun _ _ ↦ ?_
  refine (lowerStmts_writes body).bind fun _ _ ↦ ?_
  cases result with
  | none => exact (Writes.emit rfl).bind fun _ _ ↦ .closeScope
  | some r =>
    refine (lowerExpr_writes r.value).bind fun x hx ↦ ?_
    have hr : Instr.isPlain (.ret x) = true := hx
    exact (Writes.emit hr).bind fun _ _ ↦ .closeScope

theorem lowerMainBody_writes (body : Typed.Stmt) : Writes (lowerMainBody body) fun _ ↦ True :=
  Writes.openScope.bind fun _ _ ↦ (lowerStmt_writes body).bind fun _ _ ↦
    Writes.closeScope.bind fun _ _ ↦ .emit rfl

/-- The addresses and the functions of a module draft are plain. -/
structure DraftPlain (m : ModuleDraft) : Prop where
  addresses : ∀ x ∈ m.addresses, x.2.isPlain = true
  functions : ∀ F ∈ m.functions, ∀ i ∈ F.body, i.isPlain = true

variable {m m' : ModuleDraft}

theorem DraftPlain.new_plain (h : DraftPlain m) (name : Bytes) (params : List Register)
    (result : Ty) : Site.Plain ⟨m, .new name params result⟩ where
  body i hi := by
    rw [List.mem_singleton.1 hi]
    rfl
  scopes x hx := by cases hx
  addresses := h.addresses

theorem global?_plain {d : Typed.Decl} {g : Global} (h : d.global? = some g) :
    g.type = g.value.type ∧ g.value.isPlain = true := by
  have hvalue : ∀ {value : Option Typed.Literal} {c : Constant},
      (globalValue value).toOption = some c → c.isPlain = true := by
    intro value c hc
    match value with
    | none => cases hc
    | some (.bool value) => cases value <;> cases hc <;> rfl
    | some (.int value) | some (.float value) =>
      cases hc
      rfl
    | some (.string text) => cases hc
  cases d with
  | const name value | var name value =>
    obtain ⟨c, hc, rfl⟩ := Option.map_eq_some_iff.1 h
    exact ⟨rfl, hvalue hc⟩
  | fun_ | missing => cases h

theorem DraftPlain.declareGlobal {d : Typed.Decl} {g : Global} (h : DraftPlain m)
    (hg : d.global? = some g) : DraftPlain (m.declareGlobal g) where
  addresses x hx := by
    rcases List.mem_cons.1 hx with rfl | hx
    · obtain ⟨ht, hv⟩ := global?_plain hg
      change g.type.isSimple = true
      rw [ht]
      exact Constant.isSimple_type hv
    · exact h.addresses x hx
  functions := h.functions

theorem DraftPlain.withFunction {code : Lower Unit} {F : Function} {s : Site} (h : DraftPlain m)
    (hw : Writes code fun _ ↦ True) (hs : code ⟨m, .new F.name F.params F.result⟩ = .ok ((), s))
    (ha : ∃ added, Adds ⟨m, .new F.name F.params F.result⟩ s [] added)
    (hb : F.body = s.function.body) : DraftPlain (s.module.withFunction F) := by
  obtain ⟨hsw, -⟩ := hw _ _ _ (h.new_plain F.name F.params F.result) hs
  obtain ⟨added, hadds⟩ := ha
  obtain ⟨texts, ht⟩ := hadds.module
  have hf : s.module.functions = m.functions := by
    rw [ht]
    rfl
  refine ⟨hsw.addresses, fun G hG ↦ ?_⟩
  simp only [ModuleDraft.withFunction, hf] at hG
  rcases List.mem_append.1 hG with hG | hG
  · exact h.functions G hG
  · rw [List.mem_singleton.1 hG, hb]
    exact hsw.body

theorem DraftPlain.lowerDecl {d : Typed.Decl} (h : DraftPlain m) (hd : lowerDecl m d = .ok m') :
    DraftPlain m' := by
  rcases lowerDecl_ok hd with ⟨g, hg, rfl⟩ |
    ⟨name, params, body, result, F, s, rfl, -, hp, -, hs, hb, rfl⟩
  · exact h.declareGlobal hg
  · exact h.withFunction (lowerBody_writes hp) hs (lowerBody_adds hs) hb

theorem lower_plain {id : Bytes} {p : Typed.Program} {M : IR.Module} (h : lower id p = .ok M) :
    ∀ F ∈ M.functions, ∀ i ∈ F.body, i.isPlain = true := by
  obtain ⟨m, m', hd, hm, rfl⟩ := lower_ok h
  have h₀ : DraftPlain (start id) := ⟨fun x hx ↦ (List.not_mem_nil hx).elim,
    fun F hF ↦ (List.not_mem_nil hF).elim⟩
  have hw : DraftPlain m :=
    @foldlM_lowerDecl (fun _ m ↦ DraftPlain m) p.decls (fun _ hb hd ↦ hb.lowerDecl hd) p.decls []
      _ _ rfl h₀ hd
  obtain ⟨F, s, -, -, -, hs, hb, rfl⟩ := lowerMain_ok hm
  exact (hw.withFunction (lowerMainBody_writes p.main) hs (lowerMainBody_adds hs) hb).functions

theorem lower_whole {id : Bytes} {p : Typed.Program} {M : IR.Module} (h : lower id p = .ok M) :
    ∀ F ∈ M.functions, ∀ i ∈ F.body, i.isWhole = true :=
  fun F hF i hi ↦ Instr.isWhole_of_isPlain (lower_plain h F hF i hi)

end PZero.Lowering
