import PZero.Proofs.IR.Pool
import PZero.Proofs.Lowering.Inversion

namespace PZero.IR

def labels (code : List Instr) : List Bytes :=
  code.filterMap fun
    | .label name => some name
    | _ => none

@[simp] theorem labels_nil : labels [] = [] := rfl

@[simp] theorem labels_append (a b : List Instr) : labels (a ++ b) = labels a ++ labels b :=
  List.filterMap_append

@[simp] theorem labels_label (name : Bytes) (code : List Instr) :
    labels (.label name :: code) = name :: labels code := rfl

theorem labels_other {i : Instr} (h : i.isLabel = false) (code : List Instr) :
    labels (i :: code) = labels code := by
  cases i <;> first | rfl | cases h

def numbers (code : List Instr) : List Nat := (labels code).map labelNumber

@[simp] theorem numbers_nil : numbers [] = [] := rfl

@[simp] theorem numbers_append (a b : List Instr) : numbers (a ++ b) = numbers a ++ numbers b := by
  simp [numbers]

@[simp] theorem numbers_label (name : Bytes) (code : List Instr) :
    numbers (.label name :: code) = labelNumber name :: numbers code := rfl

theorem numbers_other {i : Instr} (h : i.isLabel = false) (code : List Instr) :
    numbers (i :: code) = numbers code := by
  rw [numbers, labels_other h, numbers]

def Operand.Below (n : Nat) : Operand → Prop
  | .reg r => ∃ k < n, r.name = Bytes.ofNat k
  | .const _ => True

theorem Operand.Below.mono {m n : Nat} {x : Operand} (h : x.Below m) (hle : m ≤ n) :
    x.Below n := by
  cases x with
  | reg r =>
    obtain ⟨k, hk, hr⟩ := h
    exact ⟨k, by omega, hr⟩
  | const c => trivial

end PZero.IR

namespace PZero.Lowering

open IR Lower

/-- What a piece of lowering adds between two sites: the code, with numbers for its registers and
labels that were free before. The labels that are taken and not yet placed are owed, in the order
in which they were taken. -/
structure Adds (s s' : Site) (owed : List Nat) (code : List Instr) : Prop where
  body : s'.function.body = s.function.body ++ code
  register_le : s.function.nextRegister ≤ s'.function.nextRegister
  label_le : s.function.nextLabel ≤ s'.function.nextLabel
  nodup : (owed ++ numbers code).Nodup
  range : ∀ k ∈ owed ++ numbers code, s.function.nextLabel ≤ k ∧ k < s'.function.nextLabel
  current : s'.function.current = s.function.current ∨
    labelNumber s'.function.current ∈ numbers code
  name : s'.function.name = s.function.name
  params : s'.function.params = s.function.params
  result : s'.function.result = s.function.result
  isFinished : s'.function.isFinished = s.function.isFinished
  module : ∃ texts, s'.module = s.module.withPool texts

namespace Adds

variable {s s₁ s₂ : Site} {owed : List Nat} {a b : List Instr}

theorem refl (s : Site) : Adds s s [] [] where
  body := by simp
  register_le := Nat.le_refl _
  label_le := Nat.le_refl _
  nodup := by simp
  range := by simp
  current := .inl rfl
  name := rfl
  params := rfl
  result := rfl
  isFinished := rfl
  module := ⟨[], by rw [ModuleDraft.withPool_nil]⟩

theorem trans (h : Adds s s₁ owed a) (h' : Adds s₁ s₂ [] b) : Adds s s₂ owed (a ++ b) where
  body := by rw [h'.body, h.body, List.append_assoc]
  register_le := Nat.le_trans h.register_le h'.register_le
  label_le := Nat.le_trans h.label_le h'.label_le
  nodup := by
    rw [numbers_append, ← List.append_assoc, List.nodup_append]
    refine ⟨h.nodup, h'.nodup, fun k hk l hl ↦ ?_⟩
    have := h.range k hk
    have := h'.range l hl
    omega
  range := by
    intro k hk
    rw [numbers_append, ← List.append_assoc, List.mem_append] at hk
    have := h.label_le
    have := h'.label_le
    rcases hk with hk | hk
    · have := h.range k hk
      omega
    · have := h'.range k hk
      omega
  current := by
    rw [numbers_append, List.mem_append]
    rcases h'.current with hc | hc
    · rw [hc]
      exact h.current.imp_right .inl
    · exact .inr (.inr hc)
  name := h'.name.trans h.name
  params := h'.params.trans h.params
  result := h'.result.trans h.result
  isFinished := h'.isFinished.trans h.isFinished
  module := by
    obtain ⟨t, ht⟩ := h.module
    obtain ⟨t', ht'⟩ := h'.module
    exact ⟨t ++ t', by rw [ht', ht, ModuleDraft.withPool_withPool]⟩

theorem define (h : Adds s s₁ owed a) (type : Ty) (make : Register → Instr)
    (hm : ∀ r, (make r).isLabel = false) :
    Adds s (s₁.define type make) owed (a ++ [make (s₁.next type)]) := by
  have hn : numbers [make (s₁.next type)] = [] := numbers_other (hm _) []
  exact h.trans
    { refl s₁ with
      body := rfl
      register_le := Nat.le_succ _
      nodup := by simp [hn]
      range := by simp [hn]
      current := .inl rfl }

theorem emit (h : Adds s s₁ owed a) (i : Instr) (hi : i.isLabel = false) :
    Adds s (s₁.emit i) owed (a ++ [i]) := by
  have hn : numbers [i] = [] := numbers_other hi []
  exact h.trans
    { refl s₁ with
      body := rfl
      nodup := by simp [hn]
      range := by simp [hn]
      current := .inl rfl }

theorem reserve (h : Adds s s₁ owed a) (n : Nat) :
    Adds s (s₁.reserve n) (owed ++ List.range' s₁.function.nextLabel n) a :=
  { h with
    label_le := Nat.le_add_right_of_le h.label_le
    nodup := by
      rw [List.append_assoc, List.nodup_append_comm, List.append_assoc, List.nodup_append]
      refine ⟨List.nodup_range', List.nodup_append_comm.1 h.nodup, fun k hk l hl ↦ ?_⟩
      have hl' := h.range l (List.mem_append.2 (List.mem_append.1 hl).symm)
      rw [List.mem_range'_1] at hk
      omega
    range := by
      intro k hk
      have hl := h.label_le
      change s.function.nextLabel ≤ k ∧ k < s₁.function.nextLabel + n
      by_cases hr : k ∈ owed ++ numbers a
      · have := h.range k hr
        omega
      · have hk' : k ∈ List.range' s₁.function.nextLabel n := by
          simp only [List.mem_append] at hk hr
          tauto
        rw [List.mem_range'_1] at hk'
        omega }

theorem start {label : Bytes} {k : Nat} (h : Adds s s₁ (k :: owed) a) (hk : labelNumber label = k) :
    Adds s (s₁.start label) owed (a ++ [.label label]) :=
  { h with
    body := by
      change s₁.function.body ++ [.label label] = _
      rw [h.body, List.append_assoc]
    nodup := by
      have hn := h.nodup
      rw [List.cons_append, List.nodup_cons] at hn
      rw [numbers_append, ← List.append_assoc, numbers_label, numbers_nil, List.nodup_middle,
        List.append_nil, List.nodup_cons, hk]
      exact hn
    range := by
      intro l hl
      refine h.range l ?_
      simp only [numbers_append, numbers_label, numbers_nil, List.mem_append, List.mem_cons,
        List.not_mem_nil, or_false, hk] at hl ⊢
      tauto
    current := .inr (by
      change labelNumber label ∈ _
      simp) }

theorem goto {next : Bytes} {k : Nat} (h : Adds s s₁ (k :: owed) a) (target : Bytes)
    (hk : labelNumber next = k) :
    Adds s (s₁.goto target next) owed (a ++ [.br target] ++ [.label next]) :=
  (h.emit (.br target) rfl).start hk

theorem fork {cond : Operand} {yes no next : Bytes} {k : Nat} (h : Adds s s₁ (k :: owed) a)
    (hk : labelNumber next = k) :
    Adds s (s₁.fork cond yes no next) owed (a ++ [.condBr cond yes no] ++ [.label next]) :=
  (h.emit (.condBr cond yes no) rfl).start hk

theorem enter (h : Adds s s₁ owed a) : Adds s s₁.enter owed a := { h with }

theorem leave (h : Adds s s₁ owed a) : Adds s s₁.leave owed a := { h with }

theorem bind (h : Adds s s₁ owed a) (name : Bytes) (x : Operand) :
    Adds s (s₁.bind name x) owed a := by
  unfold Site.bind Draft.bindName
  split <;> exact { h with }

theorem intern (h : Adds s s₁ owed a) (text : Bytes) : Adds s (s₁.intern text) owed a :=
  { h with
    module := by
      obtain ⟨t, ht⟩ := h.module
      obtain ⟨n, texts, hi, -⟩ := s₁.module.intern_eq text
      have hpool : (s₁.intern text).module = s₁.module.withPool texts := congrArg Prod.snd hi
      exact ⟨t ++ texts, by rw [hpool, ht, ModuleDraft.withPool_withPool]⟩ }

end Adds

@[simp] theorem labelNumber_label (stem : String) (n : Nat) (s : Site) :
    labelNumber (s.label stem n) = s.function.nextLabel + n := by
  have h : s.label stem n = ascii stem ++ 95 :: Bytes.ofNat (s.function.nextLabel + n) := by
    simp [Site.label, ascii]
  rw [h, labelNumber_append _ 95 rfl]

/-- An expression leaves the scopes as they are and gives an operand that is known from then on. -/
structure Yields (s s' : Site) (x : Operand) : Prop where
  adds : ∃ code, Adds s s' [] code
  scopes : s'.function.scopes = s.function.scopes
  below : x.Below s'.function.nextRegister

theorem Yields.of_define {s s₁ : Site} {code : List Instr} (h : Adds s s₁ [] code)
    (hs : s₁.function.scopes = s.function.scopes) (type : Ty) (make : Register → Instr)
    (hm : ∀ r, (make r).isLabel = false) :
    Yields s (s₁.define type make) (.reg (s₁.next type)) :=
  ⟨⟨_, h.define type make hm⟩, hs, s₁.function.nextRegister, Nat.lt_succ_self _, rfl⟩

theorem lowerBinary_ok {op : BinaryOp} {type : ValueType} {x y : Operand} {s : Site}
    {r : Operand × Site} (h : lowerBinary op type x y s = .ok r) :
    ∃ ty make, (∀ dst, (make dst).isLabel = false) ∧ r = (.reg (s.next ty), s.define ty make) := by
  cases op <;> cases type <;>
    simp only [lowerBinary, comparison?, define_ok, throw_ok] at h <;>
    exact ⟨_, _, fun _ ↦ rfl, h⟩

theorem lowerUnary_ok {op : UnaryOp} {type : ValueType} {x : Operand} {s : Site}
    {r : Operand × Site} (h : lowerUnary op type x s = .ok r) :
    r = (x, s) ∨
      ∃ ty make, (∀ dst, (make dst).isLabel = false) ∧
        r = (.reg (s.next ty), s.define ty make) := by
  unfold lowerUnary at h
  split at h <;> simp only [define_ok, throw_ok, pure_ok] at h
  · exact .inl h
  all_goals exact .inr ⟨_, _, fun _ ↦ rfl, h⟩

theorem lowerLiteral_yields {v : Typed.Literal} {s s' : Site} {x : Operand}
    (h : lowerLiteral v s = .ok (x, s')) : Yields s s' x := by
  cases v with
  | string text =>
    simp only [lowerLiteral, intern_bind, define_ok, Prod.mk.injEq] at h
    obtain ⟨rfl, rfl⟩ := h
    exact .of_define ((Adds.refl s).intern text) rfl _ _ fun _ ↦ rfl
  | _ =>
    simp only [lowerLiteral, pure_ok, Prod.mk.injEq] at h
    obtain ⟨rfl, rfl⟩ := h
    exact ⟨⟨[], Adds.refl _⟩, rfl, trivial⟩

mutual

theorem lowerExpr_yields : ∀ (e : Typed.Expr) {s s' : Site} {x : Operand},
    lowerExpr e s = .ok (x, s') → Yields s s' x
  | .literal v, s, s', x, h => lowerLiteral_yields (by simpa only [lowerExpr] using h)
  | .unary op operand, s, s', x, h => by
    simp only [lowerExpr, bind_ok] at h
    obtain ⟨y, s₁, hy, h⟩ := h
    obtain ⟨⟨a, ha⟩, hs, hb⟩ := lowerExpr_yields operand hy
    rcases lowerUnary_ok h with h | ⟨ty, make, hm, h⟩ <;> cases h
    · exact ⟨⟨a, ha⟩, hs, hb⟩
    · exact .of_define ha hs ty make hm
  | .unaryUnknown operand, s, s', x, h => by simp [lowerExpr, bind_ok, throw_ok] at h
  | .binary op left right, s, s', x, h => by
    simp only [lowerExpr, bind_ok] at h
    obtain ⟨y, s₁, hy, z, s₂, hz, h⟩ := h
    obtain ⟨⟨a, ha⟩, hs, -⟩ := lowerExpr_yields left hy
    obtain ⟨⟨b, hb⟩, hs', -⟩ := lowerExpr_yields right hz
    obtain ⟨ty, make, hm, h⟩ := lowerBinary_ok h
    cases h
    exact .of_define (ha.trans hb) (hs'.trans hs) ty make hm
  | .conditional cond then_ else_, s, s', x, h => by
    obtain ⟨c, s₁, y, s₂, z, s₃, hc, hy, hz, h⟩ := lowerExpr_conditional_ok h
    cases h
    obtain ⟨⟨a, ha⟩, hs₁, -⟩ := lowerExpr_yields cond hc
    obtain ⟨⟨b, hb⟩, hs₂, -⟩ := lowerExpr_yields then_ hy
    obtain ⟨⟨e, he⟩, hs₃, -⟩ := lowerExpr_yields else_ hz
    have h₁ := ((ha.reserve 3).fork (labelNumber_label "then" 0 s₁)).trans hb
    have h₂ := (h₁.goto _ (labelNumber_label "else" 1 s₁)).trans he
    have h₃ := h₂.goto (s₁.label "merge" 2) (labelNumber_label "merge" 2 s₁)
    exact .of_define h₃ (hs₃.trans (hs₂.trans hs₁)) _ _ fun _ ↦ rfl
  | .ident type name, s, s', x, h => by
    obtain ⟨ty, y, -, -, h⟩ := lowerExpr_ident_ok h
    cases h
    exact .of_define (Adds.refl _) rfl _ _ fun _ ↦ rfl
  | .call type callee args, s, s', x, h => by
    obtain ⟨ty, xs, s₁, -, hxs, h⟩ := lowerExpr_call_ok h
    cases h
    obtain ⟨⟨a, ha⟩, hs, -⟩ := lowerExprs_yields args hxs
    exact .of_define ha hs _ _ fun _ ↦ rfl
  | .missing, s, s', x, h => by simp [lowerExpr, throw_ok] at h

theorem lowerExprs_yields : ∀ (es : List Typed.Expr) {s s' : Site} {xs : List Operand},
    lowerExprs es s = .ok (xs, s') →
      (∃ code, Adds s s' [] code) ∧ s'.function.scopes = s.function.scopes ∧
        ∀ x ∈ xs, x.Below s'.function.nextRegister
  | [], s, s', xs, h => by
    simp only [lowerExprs, pure_ok, Prod.mk.injEq] at h
    obtain ⟨rfl, rfl⟩ := h
    exact ⟨⟨[], Adds.refl _⟩, rfl, by simp⟩
  | e :: es, s, s', xs, h => by
    simp only [lowerExprs, bind_ok, pure_ok, Prod.mk.injEq] at h
    obtain ⟨y, s₁, hy, ys, s₂, hys, rfl, rfl⟩ := h
    obtain ⟨⟨a, ha⟩, hs, hb⟩ := lowerExpr_yields e hy
    obtain ⟨⟨b, hb'⟩, hs', hbs⟩ := lowerExprs_yields es hys
    refine ⟨⟨_, ha.trans hb'⟩, hs'.trans hs, ?_⟩
    intro x hx
    rcases List.mem_cons.1 hx with rfl | hx
    · exact hb.mono hb'.register_le
    · exact hbs x hx

end

def declared : Typed.Stmt → List Bytes
  | .const name _ | .let_ name _ => [name]
  | _ => []

def declaredAll : List Typed.Stmt → List Bytes
  | [] => []
  | s :: ss => declaredAll ss ++ declared s

/-- A statement adds code and binds the names it declares in the innermost scope. -/
structure Extends (s s' : Site) (names : List Bytes) : Prop where
  adds : ∃ code, Adds s s' [] code
  scopes : ∀ {scope outer}, s.function.scopes = scope :: outer →
    ∃ new, s'.function.scopes = (new ++ scope) :: outer ∧ new.map Prod.fst = names

namespace Extends

variable {s s₁ s₂ : Site} {names names' : List Bytes}

theorem of_adds {code : List Instr} (h : Adds s s₁ [] code)
    (hs : s₁.function.scopes = s.function.scopes) : Extends s s₁ [] :=
  ⟨⟨code, h⟩, fun {scope outer} he ↦ ⟨[], by simp [hs, he], rfl⟩⟩

theorem trans (h : Extends s s₁ names) (h' : Extends s₁ s₂ names') :
    Extends s s₂ (names' ++ names) := by
  obtain ⟨⟨a, ha⟩, hs⟩ := h
  obtain ⟨⟨b, hb⟩, hs'⟩ := h'
  refine ⟨⟨_, ha.trans hb⟩, fun {scope outer} he ↦ ?_⟩
  obtain ⟨new, hn, rfl⟩ := hs he
  obtain ⟨new', hn', rfl⟩ := hs' hn
  exact ⟨new' ++ new, by rw [hn', List.append_assoc], List.map_append⟩

theorem enclosed {s : Site} (h : Extends s.enter s₁ names) :
    (∃ code, Adds s s₁.leave [] code) ∧ s₁.leave.function.scopes = s.function.scopes := by
  obtain ⟨⟨a, ha⟩, hs⟩ := h
  have he : s.enter.function.scopes = [] :: s.function.scopes := rfl
  obtain ⟨new, hn, -⟩ := hs he
  refine ⟨⟨_, ((Adds.refl s).enter.trans ha).leave⟩, ?_⟩
  change s₁.function.scopes.tail = _
  rw [hn, List.tail_cons]

end Extends

theorem slot_extends {s s₁ : Site} (h : Extends s s₁ []) (name : Bytes) (type : Ty) (x : Operand) :
    Extends s (s₁.slot name type x) [name] := by
  have hc := ((Adds.refl s₁).define (.ptr type) (.alloca · type) fun _ ↦ rfl).emit
    (.store x (.reg (s₁.next (.ptr type)))) rfl
  refine h.trans (⟨⟨_, hc.bind name (.reg (s₁.next (.ptr type)))⟩, fun {scope outer} he ↦ ?_⟩ :
    Extends s₁ _ [name])
  refine ⟨[(name, .reg (s₁.next (.ptr type)))], ?_, rfl⟩
  simp only [Site.bind, Draft.bindName, Site.emit, Draft.emit, Site.define,
    Draft.define, he]
  rfl

theorem lowerLocal_extends {name : Bytes} {value : Typed.Expr} {s s' : Site}
    (h : lowerLocal name value s = .ok ((), s')) : Extends s s' [name] := by
  obtain ⟨x, s₁, type, hx, -, h⟩ := lowerLocal_ok h
  cases h
  obtain ⟨⟨a, ha⟩, hs, -⟩ := lowerExpr_yields value hx
  exact slot_extends (.of_adds ha hs) name type x

theorem lowerPrint_yields {value : Typed.Expr} {s s' : Site}
    (h : lowerPrint value s = .ok ((), s')) :
    (∃ code, Adds s s' [] code) ∧ s'.function.scopes = s.function.scopes := by
  simp only [lowerPrint, bind_ok] at h
  obtain ⟨x, s₁, hx, h⟩ := h
  obtain ⟨⟨a, ha⟩, hs, -⟩ := lowerExpr_yields value hx
  cases ht : value.type <;>
    simp only [ht, define_bind, emit_ok, throw_ok, Prod.mk.injEq] at h <;> obtain ⟨-, rfl⟩ := h
  case bool => exact ⟨⟨_, (ha.define _ _ fun _ ↦ rfl).emit _ rfl⟩, hs⟩
  all_goals exact ⟨⟨_, ha.emit _ rfl⟩, hs⟩

theorem lowerPrints_yields : ∀ (es : List Typed.Expr) {s s' : Site},
    lowerPrints es s = .ok ((), s') →
      (∃ code, Adds s s' [] code) ∧ s'.function.scopes = s.function.scopes
  | [], s, s', h => by
    simp only [lowerPrints, pure_ok, Prod.mk.injEq] at h
    obtain ⟨-, rfl⟩ := h
    exact ⟨⟨[], Adds.refl _⟩, rfl⟩
  | e :: es, s, s', h => by
    simp only [lowerPrints, bind_ok] at h
    obtain ⟨_, s₁, he, h⟩ := h
    obtain ⟨⟨a, ha⟩, hs⟩ := lowerPrint_yields he
    obtain ⟨⟨b, hb⟩, hs'⟩ := lowerPrints_yields es h
    exact ⟨⟨_, ha.trans hb⟩, hs'.trans hs⟩

theorem lowerScoped_encloses {body : Typed.Stmt} {s s' : Site} {names : List Bytes}
    (h : lowerScoped body s = .ok ((), s'))
    (ih : ∀ {s₁}, lowerStmt body s.enter = .ok ((), s₁) → Extends s.enter s₁ names) :
    (∃ code, Adds s s' [] code) ∧ s'.function.scopes = s.function.scopes := by
  obtain ⟨s₁, hb, h⟩ := lowerScoped_ok h
  cases h
  exact (ih hb).enclosed

mutual

theorem lowerStmt_extends : ∀ (st : Typed.Stmt) {s s' : Site},
    lowerStmt st s = .ok ((), s') → Extends s s' (declared st)
  | .const name value, s, s', h => lowerLocal_extends (by simpa only [lowerStmt] using h)
  | .let_ name value, s, s', h => lowerLocal_extends (by simpa only [lowerStmt] using h)
  | .assign name value, s, s', h => by
    obtain ⟨x, s₁, addr, hx, -, h⟩ := lowerStmt_assign_ok h
    cases h
    obtain ⟨⟨a, ha⟩, hs, -⟩ := lowerExpr_yields value hx
    exact .of_adds (ha.emit _ rfl) hs
  | .if_ cond then_ none, s, s', h => by
    obtain ⟨c, s₁, s₂, hc, ht, h⟩ := lowerStmt_if_ok h
    cases h
    obtain ⟨⟨a, ha⟩, hs₁, -⟩ := lowerExpr_yields cond hc
    obtain ⟨⟨b, hb⟩, hs₂⟩ := lowerScoped_encloses ht (lowerStmt_extends then_)
    have h₁ := ((ha.reserve 2).fork (labelNumber_label "then" 0 s₁)).trans hb
    exact .of_adds (h₁.goto _ (labelNumber_label "merge" 1 s₁)) (hs₂.trans hs₁)
  | .if_ cond then_ (some else_), s, s', h => by
    obtain ⟨c, s₁, s₂, s₃, hc, ht, he, h⟩ := lowerStmt_if_else_ok h
    cases h
    obtain ⟨⟨a, ha⟩, hs₁, -⟩ := lowerExpr_yields cond hc
    obtain ⟨⟨b, hb⟩, hs₂⟩ := lowerScoped_encloses ht (lowerStmt_extends then_)
    obtain ⟨⟨e, he⟩, hs₃⟩ := lowerScoped_encloses he (lowerStmt_extends else_)
    have h₁ := ((ha.reserve 3).fork (labelNumber_label "then" 0 s₁)).trans hb
    have h₂ := (h₁.goto _ (labelNumber_label "else" 1 s₁)).trans he
    exact .of_adds (h₂.goto _ (labelNumber_label "merge" 2 s₁)) (hs₃.trans (hs₂.trans hs₁))
  | .while_ cond body, s, s', h => by
    obtain ⟨c, s₁, s₂, hc, hb, h⟩ := lowerStmt_while_ok h
    cases h
    obtain ⟨⟨a, ha⟩, hs₁, -⟩ := lowerExpr_yields cond hc
    obtain ⟨⟨b, hb⟩, hs₂⟩ := lowerScoped_encloses hb (lowerStmt_extends body)
    have h₁ := (((Adds.refl s).reserve 3).goto _ (labelNumber_label "while" 0 s)).trans ha
    have h₂ := (h₁.fork (labelNumber_label "body" 1 s)).trans hb
    exact .of_adds (h₂.goto _ (labelNumber_label "merge" 2 s)) (hs₂.trans hs₁)
  | .block stmts, s, s', h => by
    obtain ⟨s₁, hb, h⟩ := lowerStmt_block_ok h
    cases h
    obtain ⟨⟨a, ha⟩, hs⟩ := (lowerStmts_extends stmts hb).enclosed
    exact .of_adds ha hs
  | .call callee args true, s, s', h => by
    obtain ⟨s₁, ha, h⟩ := lowerStmt_print_ok h
    cases h
    obtain ⟨⟨a, ha⟩, hs⟩ := lowerPrints_yields args ha
    split
    · exact .of_adds (ha.emit _ rfl) hs
    · exact .of_adds ha hs
  | .call callee args false, s, s', h => by
    obtain ⟨xs, s₁, hxs, h⟩ := lowerStmt_call_ok h
    cases h
    obtain ⟨⟨a, ha⟩, hs, -⟩ := lowerExprs_yields args hxs
    exact .of_adds (ha.emit _ rfl) hs
  | .empty, s, s', h => by
    simp only [lowerStmt, pure_ok, Prod.mk.injEq] at h
    obtain ⟨-, rfl⟩ := h
    exact .of_adds (Adds.refl _) rfl
  | .missing, s, s', h => by simp [lowerStmt, throw_ok] at h

theorem lowerStmts_extends : ∀ (ss : List Typed.Stmt) {s s' : Site},
    lowerStmts ss s = .ok ((), s') → Extends s s' (declaredAll ss)
  | [], s, s', h => by
    simp only [lowerStmts, pure_ok, Prod.mk.injEq] at h
    obtain ⟨-, rfl⟩ := h
    exact .of_adds (Adds.refl _) rfl
  | st :: ss, s, s', h => by
    simp only [lowerStmts, bind_ok] at h
    obtain ⟨_, s₁, hs, h⟩ := h
    exact (lowerStmt_extends st hs).trans (lowerStmts_extends ss h)

end

theorem lowerScoped_adds (st : Typed.Stmt) {s s' : Site} (h : lowerScoped st s = .ok ((), s')) :
    (∃ code, Adds s s' [] code) ∧ s'.function.scopes = s.function.scopes :=
  lowerScoped_encloses h (lowerStmt_extends st)

theorem slot_adds (s : Site) (name : Bytes) (type : Ty) (x : Operand) :
    ∃ code, Adds s (s.slot name type x) [] code :=
  (slot_extends (.of_adds (Adds.refl s) rfl) name type x).adds

theorem params_adds (ps : List Typed.Param) (rs : List Register) (s : Site) :
    ∃ code, Adds s (s.params ps rs) [] code := by
  induction ps generalizing rs s with
  | nil => exact ⟨[], Adds.refl s⟩
  | cons p ps ih =>
    cases rs with
    | nil => exact ⟨[], Adds.refl s⟩
    | cons r rs =>
      obtain ⟨a, ha⟩ := slot_adds s p.name r.type (.reg r)
      obtain ⟨b, hb⟩ := ih rs (s.slot p.name r.type (.reg r))
      exact ⟨_, ha.trans hb⟩

theorem lowerBody_adds {params : List Typed.Param} {registers : List Register}
    {body : List Typed.Stmt} {result : Option Typed.Result} {s s' : Site}
    (h : lowerBody params registers body result s = .ok ((), s')) :
    ∃ code, Adds s s' [] code := by
  obtain ⟨s₁, hs, h⟩ := lowerBody_ok h
  obtain ⟨a, ha⟩ := params_adds params registers s.enter
  obtain ⟨b, hb⟩ := (lowerStmts_extends body hs).adds
  have h₁ := (((Adds.refl s).enter.trans ha).trans hb)
  rcases h with ⟨-, h⟩ | ⟨value, x, s₂, -, hx, h⟩ <;> cases h
  · exact ⟨_, (h₁.emit .retVoid rfl).leave⟩
  · obtain ⟨⟨c, hc⟩, -, -⟩ := lowerExpr_yields value.value hx
    exact ⟨_, ((h₁.trans hc).emit (.ret x) rfl).leave⟩

theorem lowerMainBody_adds {body : Typed.Stmt} {s s' : Site}
    (h : lowerMainBody body s = .ok ((), s')) : ∃ code, Adds s s' [] code := by
  obtain ⟨s₁, hb, h⟩ := lowerMainBody_ok h
  cases h
  obtain ⟨⟨a, ha⟩, -⟩ := (lowerStmt_extends body hb).enclosed
  exact ⟨_, ha.emit _ rfl⟩

theorem labels_nodup {m : ModuleDraft} {name : Bytes} {params : List Register} {result : Ty}
    {s : Site} {code : List Instr} (h : Adds ⟨m, .new name params result⟩ s [] code) :
    (labels s.function.body).Nodup := by
  have hb : s.function.body = .label Draft.entry :: code := h.body
  have hn : (numbers s.function.body).Nodup := by
    rw [hb, numbers_label, labelNumber_entry, List.nodup_cons]
    refine ⟨fun h0 ↦ ?_, h.nodup⟩
    exact absurd (h.range 0 h0).1 (Nat.not_succ_le_zero 0)
  exact List.Nodup.of_map labelNumber hn

end PZero.Lowering
