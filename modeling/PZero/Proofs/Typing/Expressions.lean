import PZero.Proofs.Typing.Literals
import PZero.Proofs.Typing.Scope

namespace PZero.Typing

variable {scopes : Scopes}

@[simp] theorem blame_eq_nil {condition : Bool} {place : Span} {problem : Problem} :
    blame condition place problem = [] ↔ condition = false := by
  cases condition <;> simp [blame]

theorem ne_unknown {type : ValueType} (h : type ∈ ValueType.scalars) : type ≠ .unknown := by
  rintro rfl
  simp [ValueType.scalars] at h

theorem clashes_eq_false {got wanted : ValueType} (h : got ≠ .unknown) :
    clashes got wanted = false ↔ got = wanted := by
  simp [clashes, h]

theorem differ_eq_false {a b : ValueType} (ha : a ∈ ValueType.scalars)
    (hb : b ∈ ValueType.scalars) : differ a b = false ↔ a = b := by
  revert ha hb
  cases a <;> cases b <;> decide

theorem unaryAccepts_iff {op : UnaryOp} {type : ValueType} (h : type ∈ ValueType.scalars) :
    (type ≠ .unknown && !unaryAccepts op type) = false ↔ type ∈ op.operandTypes := by
  revert h
  cases op <;> cases type <;> decide

/-- An operator finds fault with its operands unless they have one type that it takes. -/
theorem binaryProblems_eq_nil {op : BinaryOp} {a b : ValueType} {p q r : Span}
    (ha : a ∈ ValueType.scalars) (hb : b ∈ ValueType.scalars) :
    binaryProblems op a b p q r = [] ↔ a = b ∧ a ∈ op.operandTypes := by
  revert ha hb
  cases op <;> cases a <;> cases b <;>
    simp [binaryProblems, operandProblem, differ, isNumeric, blame, BinaryOp.operandTypes,
      ValueType.scalars]

theorem argumentTypeProblems_eq_nil {callee : Bytes} {params types : List ValueType}
    {places : List Span} (hl : types.length = params.length) (hp : places.length = types.length)
    (ht : ∀ type ∈ types, type ≠ .unknown) (first : Nat) :
    argumentTypeProblems callee first params (types.zip places) = [] ↔ types = params := by
  induction types generalizing params places first with
  | nil =>
    have hn : params = [] := List.length_eq_zero_iff.1 hl.symm
    simp [hn, argumentTypeProblems]
  | cons t types ih =>
    cases params with
    | nil => simp at hl
    | cons wanted params =>
      cases places with
      | nil => simp at hp
      | cons place places =>
        have hi := ih (Nat.succ.inj hl) (Nat.succ.inj hp)
          (fun t ht' ↦ ht t (List.mem_cons_of_mem _ ht')) (first + 1)
        simp only [List.zip_cons_cons, argumentTypeProblems, List.append_eq_nil_iff, blame_eq_nil,
          clashes_eq_false (ht t List.mem_cons_self), hi, List.cons.injEq]

theorem argumentProblems_eq_nil {callee : Surface.Ident} {params types : List ValueType}
    {places : List Span} (hp : places.length = types.length)
    (ht : ∀ type ∈ types, type ≠ .unknown) :
    argumentProblems callee params (types.zip places) = [] ↔ types = params := by
  have hz : (types.zip places).length = types.length := by
    rw [List.length_zip, hp, Nat.min_self]
  unfold argumentProblems
  split
  · rename_i hl
    exact argumentTypeProblems_eq_nil (hz ▸ hl) hp ht 1
  · rename_i hl
    constructor
    · intro h
      cases h
    · rintro rfl
      exact absurd hz hl

theorem Types.type_eq : ∀ {e : Surface.Expr} {x : Typed.Expr} {type : ValueType},
    Types scopes e x type → x.type = type
  | .bool _ _, _, _, .bool _ _ => rfl
  | .int _ _, _, _, .int _ _ => rfl
  | .unary _ _ _, _, _, .negative _ _ _ => rfl
  | .float _ _, _, _, .float _ _ => rfl
  | .ident _ _, _, _, .ident _ _ => rfl
  | .paren _ _, _, _, .paren _ h => h.type_eq
  | .unary _ _ _, _, _, .unary _ _ h _ => h.type_eq
  | .binary _ _ _ _, _, _, .binary _ h _ _ => by
    simp only [Typed.Expr.type, h.type_eq]
  | .conditional _ _ _ _, _, _, .conditional _ _ h _ => h.type_eq
  | .call _ _ _, _, _, .call _ _ _ => rfl

theorem TypesAll.types_eq {es : List Surface.Expr} {xs : List Typed.Expr} {types : List ValueType}
    (h : TypesAll scopes es xs types) : xs.map Typed.Expr.type = types := by
  induction es generalizing xs types with
  | nil =>
    cases h
    rfl
  | cons e es ih =>
    cases h with
    | cons hx hxs => rw [List.map_cons, hx.type_eq, ih hxs]

theorem HoldsValue.scalar {name : Bytes} {type : ValueType} (hk : scopes.Known)
    (h : HoldsValue scopes name type) : type ∈ ValueType.scalars := by
  rcases h with h | h <;> exact h.scalar hk type (List.mem_singleton_self _)

theorem Types.scalar (hk : scopes.Known) : ∀ {e : Surface.Expr} {x : Typed.Expr}
    {type : ValueType}, Types scopes e x type → type ∈ ValueType.scalars
  | .bool _ _, _, _, .bool _ _ => by decide
  | .int _ _, _, _, .int _ _ => by decide
  | .unary _ _ _, _, _, .negative _ _ _ => by decide
  | .float _ _, _, _, .float _ _ => by decide
  | .ident _ _, _, _, .ident _ h => h.scalar hk
  | .paren _ _, _, _, .paren _ h => h.scalar hk
  | .unary _ _ _, _, _, .unary _ _ h _ => h.scalar hk
  | .binary op _ _ _, _, _, .binary _ h _ _ => by
    have ht := h.scalar hk
    split
    · exact ht
    · decide
  | .conditional _ _ _ _, _, _, .conditional _ _ h _ => h.scalar hk
  | .call _ _ _, _, _, .call _ h _ => h.scalar hk _ (by simp [Binding.types])

theorem TypesAll.scalar (hk : scopes.Known) {es : List Surface.Expr} {xs : List Typed.Expr}
    {types : List ValueType} (h : TypesAll scopes es xs types) :
    ∀ type ∈ types, type ∈ ValueType.scalars := by
  induction es generalizing xs types with
  | nil =>
    cases h
    simp
  | cons e es ih =>
    cases h with
    | cons hx hxs =>
      intro t ht
      rcases List.mem_cons.1 ht with rfl | ht
      · exact hx.scalar hk
      · exact ih hxs t ht

theorem TypesAll.length_eq {es : List Surface.Expr} {xs : List Typed.Expr}
    {types : List ValueType} (h : TypesAll scopes es xs types) : es.length = types.length := by
  induction es generalizing xs types with
  | nil =>
    cases h
    rfl
  | cons e es ih =>
    cases h with
    | cons hx hxs => simp [ih hxs]

theorem callProblems_eq_nil {callee : Surface.Ident} {params types : List ValueType}
    {args : List Surface.Expr} {xs : List Typed.Expr} (hk : scopes.Known)
    (h : TypesAll scopes args xs types) :
    argumentProblems callee params ((xs.map Typed.Expr.type).zip (args.map (·.span))) = [] ↔
      types = params := by
  rw [h.types_eq]
  refine argumentProblems_eq_nil ?_ fun t ht ↦ ne_unknown (h.scalar hk t ht)
  rw [List.length_map, h.length_eq]

mutual

theorem checkExpr_sound (hk : scopes.Known) : ∀ (e : Surface.Expr) {x : Typed.Expr}, e.Shaped →
    checkExpr scopes e = (x, []) → ∃ type, Types scopes e x type
  | .conditional cond then_ else_ span, x, hs, h => by
    obtain ⟨hc, ht, he⟩ := hs
    rcases ec : checkExpr scopes cond with ⟨c, cf⟩
    rcases et : checkExpr scopes then_ with ⟨t, tf⟩
    rcases ee : checkExpr scopes else_ with ⟨e, ef⟩
    simp only [checkExpr, ec, et, ee, Prod.mk.injEq, List.append_eq_nil_iff, blame_eq_nil] at h
    obtain ⟨rfl, ⟨⟨⟨rfl, rfl⟩, rfl⟩, hg⟩, hd⟩ := h
    obtain ⟨a, ha⟩ := checkExpr_sound hk cond hc ec
    obtain ⟨b, hb⟩ := checkExpr_sound hk then_ ht et
    obtain ⟨b', hb'⟩ := checkExpr_sound hk else_ he ee
    rw [ha.type_eq, clashes_eq_false (ne_unknown (ha.scalar hk))] at hg
    rw [hb.type_eq, hb'.type_eq, differ_eq_false (hb.scalar hk) (hb'.scalar hk)] at hd
    subst hg hd
    exact ⟨b, .conditional span ha hb hb'⟩
  | .binary op left right span, x, hs, h => by
    obtain ⟨hl, hr⟩ := hs
    rcases el : checkExpr scopes left with ⟨y, yf⟩
    rcases er : checkExpr scopes right with ⟨z, zf⟩
    simp only [checkExpr, el, er, Prod.mk.injEq, List.append_eq_nil_iff] at h
    obtain ⟨rfl, ⟨rfl, rfl⟩, hp⟩ := h
    obtain ⟨a, ha⟩ := checkExpr_sound hk left hl el
    obtain ⟨b, hb⟩ := checkExpr_sound hk right hr er
    rw [ha.type_eq, hb.type_eq, binaryProblems_eq_nil (ha.scalar hk) (hb.scalar hk)] at hp
    obtain ⟨rfl, hm⟩ := hp
    exact ⟨_, .binary span ha hb hm⟩
  | .binaryUnknown _ _ _ _, _, hs, _ => hs.elim
  | .unary op operand span, x, hs, h => by
    rcases negated_or_plain op operand with ⟨text, inner, rfl, rfl⟩ | hplain
    · rcases ev : intLiteral text true span with ⟨v, vf⟩
      simp only [checkExpr, ev, Prod.mk.injEq] at h
      obtain ⟨rfl, rfl⟩ := h
      obtain ⟨hr, rfl⟩ := (intLiteral_negative_iff hs).1 ev
      exact ⟨.int, .negative inner span hr⟩
    · rcases eo : checkExpr scopes operand with ⟨y, yf⟩
      rw [checkExpr_unary hplain] at h
      simp only [eo, Prod.mk.injEq, List.append_eq_nil_iff, blame_eq_nil] at h
      obtain ⟨rfl, rfl, ha⟩ := h
      obtain ⟨a, hy⟩ := checkExpr_sound hk operand hs eo
      rw [hy.type_eq, unaryAccepts_iff (hy.scalar hk)] at ha
      exact ⟨a, .unary span hplain hy ha⟩
  | .call callee args span, x, hs, h => by
    rcases ea : checkExprs scopes args with ⟨xs, xf⟩
    simp only [checkExpr, ea] at h
    split at h <;> try simp at h
    rename_i params result hl
    split at h <;> simp at h
    rename_i type
    obtain ⟨rfl, rfl, hp⟩ := h
    obtain ⟨types, ht⟩ := checkExprs_sound hk args hs.2 ea
    rw [callProblems_eq_nil hk ht] at hp
    subst hp
    exact ⟨type, .call span ((resolves_iff hk).2 hl) ht⟩
  | .ident name span, x, hs, h => by
    simp only [checkExpr] at h
    split at h <;> try simp at h
    · rename_i type hl
      subst h
      exact ⟨type, .ident span (.inl ((resolves_iff hk).2 hl))⟩
    · rename_i type hl
      subst h
      exact ⟨type, .ident span (.inr ((resolves_iff hk).2 hl))⟩
  | .paren inner span, x, hs, h => by
    simp only [checkExpr] at h
    obtain ⟨type, ht⟩ := checkExpr_sound hk inner hs h
    exact ⟨type, .paren span ht⟩
  | .int text span, x, hs, h => by
    rcases ev : intLiteral text false span with ⟨v, vf⟩
    simp only [checkExpr, ev, Prod.mk.injEq] at h
    obtain ⟨rfl, rfl⟩ := h
    obtain ⟨hr, rfl⟩ := (intLiteral_iff hs).1 ev
    exact ⟨.int, .int span hr⟩
  | .float text span, x, hs, h => by
    rcases ev : floatLiteral text false span with ⟨v, vf⟩
    simp only [checkExpr, ev, Prod.mk.injEq] at h
    obtain ⟨rfl, rfl⟩ := h
    obtain ⟨bits, hd, rfl⟩ := (floatLiteral_iff hs).1 ev
    exact ⟨.float, .float span hd⟩
  | .string text span, x, _, h => by simp [checkExpr] at h
  | .bool value span, x, _, h => by
    simp only [checkExpr, Prod.mk.injEq, and_true] at h
    subst h
    exact ⟨.bool, .bool value span⟩

theorem checkExprs_sound (hk : scopes.Known) : ∀ (es : List Surface.Expr) {xs : List Typed.Expr},
    Surface.Expr.AllShaped es → checkExprs scopes es = (xs, []) →
      ∃ types, TypesAll scopes es xs types
  | [], xs, _, h => by
    simp only [checkExprs, Prod.mk.injEq, and_true] at h
    subst h
    exact ⟨[], .nil⟩
  | e :: es, xs, hs, h => by
    rcases ee : checkExpr scopes e with ⟨y, yf⟩
    rcases es' : checkExprs scopes es with ⟨ys, ysf⟩
    simp only [checkExprs, ee, es', Prod.mk.injEq, List.append_eq_nil_iff] at h
    obtain ⟨rfl, rfl, rfl⟩ := h
    obtain ⟨t, ht⟩ := checkExpr_sound hk e hs.1 ee
    obtain ⟨ts, hts⟩ := checkExprs_sound hk es hs.2 es'
    exact ⟨t :: ts, .cons ht hts⟩

end

mutual

theorem checkExpr_complete (hk : scopes.Known) : ∀ (e : Surface.Expr) {x : Typed.Expr}
    {type : ValueType}, e.Shaped → Types scopes e x type → checkExpr scopes e = (x, [])
  | .conditional cond then_ else_ span, _, _, hs, .conditional _ hc ht he => by
    have hg : clashes .bool .bool = false := rfl
    have hd := (differ_eq_false (ht.scalar hk) (he.scalar hk)).2 rfl
    simp [checkExpr, checkExpr_complete hk cond hs.1 hc, checkExpr_complete hk then_ hs.2.1 ht,
      checkExpr_complete hk else_ hs.2.2 he, hc.type_eq, ht.type_eq, he.type_eq, hg, hd]
  | .binary op left right span, _, _, hs, .binary _ hl hr hm => by
    simp [checkExpr, checkExpr_complete hk left hs.1 hl, checkExpr_complete hk right hs.2 hr,
      hl.type_eq, hr.type_eq, (binaryProblems_eq_nil (hl.scalar hk) (hr.scalar hk)).2 ⟨rfl, hm⟩]
  | .unary op operand span, _, _, hs, h => by
    cases h with
    | negative inner _ hr => simp [checkExpr, (intLiteral_negative_iff hs).2 ⟨hr, rfl⟩]
    | unary _ hn ho hm =>
      rw [checkExpr_unary hn]
      have ha := (unaryAccepts_iff (ho.scalar hk)).2 hm
      simp only [checkExpr_complete hk operand hs ho, ho.type_eq, ha, blame, Bool.false_eq_true,
        if_false, List.append_nil]
  | .call callee args span, _, _, hs, .call _ hb ha => by
    simp [checkExpr, (resolves_iff hk).1 hb, checkExprs_complete hk args hs.2 ha,
      (callProblems_eq_nil hk ha).2 rfl]
  | .ident name span, _, _, _, .ident _ hv => by
    rcases hv with hv | hv <;> simp [checkExpr, (resolves_iff hk).1 hv]
  | .paren inner span, _, _, hs, .paren _ h => by
    simp only [checkExpr]
    exact checkExpr_complete hk inner hs h
  | .int text span, _, _, hs, .int _ hr => by
    simp [checkExpr, (intLiteral_iff hs).2 ⟨hr, rfl⟩]
  | .float text span, _, _, hs, .float _ hd => by
    have hf : floatLiteral text false span = (.float _, []) := (floatLiteral_iff hs).2 ⟨_, hd, rfl⟩
    simp [checkExpr, hf]
  | .bool value span, _, _, _, .bool _ _ => by simp [checkExpr]

theorem checkExprs_complete (hk : scopes.Known) : ∀ (es : List Surface.Expr)
    {xs : List Typed.Expr} {types : List ValueType}, Surface.Expr.AllShaped es →
    TypesAll scopes es xs types → checkExprs scopes es = (xs, [])
  | [], _, _, _, .nil => by simp [checkExprs]
  | e :: es, _, _, hs, .cons h hs' => by
    simp [checkExprs, checkExpr_complete hk e hs.1 h, checkExprs_complete hk es hs.2 hs']

end

theorem checkArg_sound (hk : scopes.Known) {e : Surface.Expr} {x : Typed.Expr} (hs : e.Shaped)
    (h : checkArg scopes e = (x, [])) : Prints scopes e x := by
  unfold checkArg at h
  split at h
  · split at h <;> simp only [Prod.mk.injEq, reduceCtorEq, and_false, and_true] at h
    rename_i hd
    subst h
    exact .string _ hd
  · obtain ⟨type, ht⟩ := checkExpr_sound hk e hs h
    exact .value ht

theorem checkArg_complete (hk : scopes.Known) {e : Surface.Expr} {x : Typed.Expr} (hs : e.Shaped)
    (h : Prints scopes e x) : checkArg scopes e = (x, []) := by
  cases h with
  | string span hd => simp [checkArg, hd]
  | value ht =>
    unfold checkArg
    split
    · cases ht
    · exact checkExpr_complete hk e hs ht

theorem checkArgs_iff (hk : scopes.Known) {es : List Surface.Expr} {xs : List Typed.Expr}
    (hs : Surface.Expr.AllShaped es) :
    checkArgs scopes es = (xs, []) ↔ List.Forall₂ (Prints scopes) es xs := by
  induction es generalizing xs with
  | nil =>
    simp only [checkArgs, Prod.mk.injEq, and_true, List.forall₂_nil_left_iff]
    exact eq_comm
  | cons e es ih =>
    rcases ee : checkArg scopes e with ⟨y, yf⟩
    rcases es' : checkArgs scopes es with ⟨ys, ysf⟩
    simp only [checkArgs, ee, es', Prod.mk.injEq, List.append_eq_nil_iff]
    constructor
    · rintro ⟨rfl, rfl, rfl⟩
      exact .cons (checkArg_sound hk hs.1 ee) ((ih hs.2).1 es')
    · intro h
      cases h with
      | cons hx hxs =>
        cases ee.symm.trans (checkArg_complete hk hs.1 hx)
        cases es'.symm.trans ((ih hs.2).2 hxs)
        exact ⟨rfl, rfl, rfl⟩

theorem Prints.ne_unknown (hk : scopes.Known) {e : Surface.Expr} {x : Typed.Expr}
    (h : Prints scopes e x) : x.type ≠ .unknown := by
  cases h with
  | string => exact fun h ↦ nomatch h
  | value ht =>
    rw [ht.type_eq]
    exact Typing.ne_unknown (ht.scalar hk)

theorem prints_ne_unknown (hk : scopes.Known) {es : List Surface.Expr} {xs : List Typed.Expr}
    (h : List.Forall₂ (Prints scopes) es xs) : ∀ type ∈ xs.map Typed.Expr.type,
      type ≠ .unknown := by
  induction h with
  | nil => simp
  | cons hx _ ih =>
    intro type ht
    rcases List.mem_cons.1 ht with rfl | ht
    · exact hx.ne_unknown hk
    · exact ih type ht

theorem printedProblems_eq_nil {callee : Surface.Ident} {params : List ValueType}
    {args : List Surface.Expr} {xs : List Typed.Expr} (hk : scopes.Known)
    (h : List.Forall₂ (Prints scopes) args xs) :
    argumentProblems callee params ((xs.map Typed.Expr.type).zip (args.map (·.span))) = [] ↔
      xs.map Typed.Expr.type = params := by
  refine argumentProblems_eq_nil ?_ (prints_ne_unknown hk h)
  rw [List.length_map, List.length_map, h.length_eq]

theorem typesAll_iff {es : List Surface.Expr} {xs : List Typed.Expr}
    {types : List ValueType} (ht : ∀ type ∈ types, type ∈ ValueType.scalars) :
    TypesAll scopes es xs types ↔
      List.Forall₂ (Prints scopes) es xs ∧ xs.map Typed.Expr.type = types := by
  constructor
  · intro h
    refine ⟨?_, h.types_eq⟩
    induction es generalizing xs types with
    | nil =>
      cases h
      exact .nil
    | cons e es ih =>
      cases h with
      | cons hx hxs => exact .cons (.value hx) (ih (fun t h ↦ ht t (List.mem_cons_of_mem _ h)) hxs)
  · rintro ⟨h, rfl⟩
    induction h with
    | nil => exact .nil
    | cons hx _ ih =>
      refine .cons ?_ (ih fun t h ↦ ht t (List.mem_cons_of_mem _ h))
      cases hx with
      | string =>
        have hs := ht .string List.mem_cons_self
        simp [ValueType.scalars] at hs
      | value hx => exact hx.type_eq ▸ hx

end PZero.Typing
