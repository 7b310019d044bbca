import PZero.Proofs.Typing.Program

namespace PZero.Typing

variable {scopes scopes' : Scopes} {scope : Scope}

theorem Resolves.lookup {name : Bytes} {binding : Binding} (hk : scopes.Known)
    (h : Resolves scopes name binding) : scopes.flatten.lookup name = some binding := by
  rw [← findSome?_lookup]
  exact (resolves_iff hk).1 h

mutual

theorem Types.wellTyped (hk : scopes.Known) : ∀ (e : Surface.Expr) {x : Typed.Expr}
    {type : ValueType}, Types scopes e x type → x.WellTyped scopes.flatten
  | .bool _ _, _, _, .bool _ _ => trivial
  | .int _ _, _, _, .int _ hr => by
    simp only [Typed.Expr.WellTyped, Typed.Literal.IsScalar]
    omega
  | .float _ _, _, _, .float _ _ => trivial
  | .ident _ _, _, _, .ident _ hv => by
    refine ⟨hv.scalar hk, ?_⟩
    exact hv.imp (fun h ↦ h.lookup hk) fun h ↦ h.lookup hk
  | .paren inner _, _, _, .paren _ h => h.wellTyped hk inner
  | .unary _ operand _, _, _, h => by
    cases h with
    | negative _ _ hr =>
      simp only [Typed.Expr.WellTyped, Typed.Literal.IsScalar]
      omega
    | unary _ _ ho hm => exact ⟨ho.wellTyped hk operand, ho.type_eq ▸ hm⟩
  | .binary _ left right _, _, _, .binary _ hl hr hm => by
    refine ⟨hl.wellTyped hk left, hr.wellTyped hk right, ?_, ?_⟩
    · rw [hl.type_eq, hr.type_eq]
    · rw [hl.type_eq]
      exact hm
  | .conditional cond then_ else_ _, _, _, .conditional _ hc ht he => by
    refine ⟨hc.wellTyped hk cond, ht.wellTyped hk then_, he.wellTyped hk else_, hc.type_eq, ?_⟩
    rw [ht.type_eq, he.type_eq]
  | .call _ args _, _, _, .call _ hr ha => by
    refine ⟨ha.allWellTyped hk args, hr.scalar hk _ (by simp [Binding.types]), ?_⟩
    rw [ha.types_eq]
    exact hr.lookup hk

theorem TypesAll.allWellTyped (hk : scopes.Known) : ∀ (es : List Surface.Expr)
    {xs : List Typed.Expr} {types : List ValueType}, TypesAll scopes es xs types →
    Typed.Expr.AllWellTyped scopes.flatten xs
  | [], _, _, .nil => trivial
  | e :: es, _, _, .cons h hs => ⟨h.wellTyped hk e, hs.allWellTyped hk es⟩

end

theorem Prints.printable (hk : scopes.Known) {e : Surface.Expr} {x : Typed.Expr}
    (h : Prints scopes e x) : x.Printable scopes.flatten := by
  cases h with
  | string _ _ => exact .inr ⟨_, rfl⟩
  | value ht => exact .inl (ht.wellTyped hk e)

theorem prints_printable (hk : scopes.Known) {es : List Surface.Expr} {xs : List Typed.Expr}
    (h : List.Forall₂ (Prints scopes) es xs) : ∀ x ∈ xs, x.Printable scopes.flatten := by
  induction h with
  | nil => simp
  | cons hx _ ih =>
    intro x hm
    rcases List.mem_cons.1 hm with rfl | hm
    · exact hx.printable hk
    · exact ih x hm

theorem Checks.flatten_eq {s : Surface.Stmt} {t : Typed.Stmt} (h : Checks scopes s t scopes') :
    scopes'.flatten = t.after scopes.flatten := by
  cases h with
  | const _ ht _ =>
    simp only [Typed.Stmt.after, ht.type_eq]
    rfl
  | let_ _ ht _ =>
    simp only [Typed.Stmt.after, ht.type_eq]
    rfl
  | _ => rfl

theorem ChecksAll.flatten_eq {ss : List Surface.Stmt} {ts : List Typed.Stmt}
    (h : ChecksAll scopes ss ts scopes') :
    scopes'.flatten = Typed.Stmt.afterAll scopes.flatten ts := by
  induction ss generalizing scopes ts with
  | nil =>
    cases h
    rfl
  | cons s ss ih =>
    cases h with
    | cons hc hcs =>
      rw [ih hcs, hc.flatten_eq]
      rfl

mutual

theorem Checks.wellTyped : ∀ (s : Surface.Stmt) {scopes scopes' : Scopes} {t : Typed.Stmt},
    scopes.Known → Checks scopes s t scopes' → t.WellTyped scopes.flatten
  | .decl _ _ value _, _, _, _, hk, .const _ ht _ => ht.wellTyped hk value
  | .decl _ _ value _, _, _, _, hk, .let_ _ ht _ => ht.wellTyped hk value
  | .assign _ value _, _, _, _, hk, .assign _ ht hr => by
    refine ⟨ht.wellTyped hk value, ?_⟩
    rw [ht.type_eq]
    exact hr.lookup hk
  | .if_ cond then_ none _, _, _, _, hk, .if_ _ hc ht => by
    have ht' := ht.wellTyped then_ hk.enter
    exact ⟨hc.wellTyped hk cond, hc.type_eq, ht'⟩
  | .if_ cond then_ (some else_) _, _, _, _, hk, .ifElse _ hc ht he => by
    have ht' := ht.wellTyped then_ hk.enter
    have he' := he.wellTyped else_ hk.enter
    exact ⟨hc.wellTyped hk cond, hc.type_eq, ht', he'⟩
  | .while_ cond body _, _, _, _, hk, .while_ _ hc hb => by
    have hb' := hb.wellTyped body hk.enter
    exact ⟨hc.wellTyped hk cond, hc.type_eq, hb'⟩
  | .block stmts _, _, _, _, hk, .block _ hb => by
    have hb' := hb.allWellTyped stmts hk.enter
    exact hb'
  | .call callee args _, scopes, _, _, hk, .print _ hb hn hp => by
    refine ⟨prints_printable hk hp, ?_, ?_⟩
    · rw [← findSome?_lookup]
      exact (not_resolves_iff hk).1 hn
    · simpa [isBuiltin] using hb
  | .call callee args _, _, _, _, hk, .call _ hr ha => by
    refine ⟨ha.allWellTyped hk args, ?_⟩
    rw [ha.types_eq]
    exact hr.lookup hk
  | .empty _, _, _, _, _, .empty _ => trivial

theorem ChecksAll.allWellTyped : ∀ (ss : List Surface.Stmt) {scopes scopes' : Scopes}
    {ts : List Typed.Stmt}, scopes.Known → ChecksAll scopes ss ts scopes' →
    Typed.Stmt.AllWellTyped scopes.flatten ts
  | [], _, _, _, _, .nil => trivial
  | s :: ss, _, _, _, hk, .cons h hs => by
    refine ⟨h.wellTyped s hk, ?_⟩
    rw [← h.flatten_eq]
    exact hs.allWellTyped ss (h.known hk)

end

theorem Initial.isScalar {value : Surface.Expr} {v : Typed.Literal} (h : Initial value v) :
    v.IsScalar := by
  induction h with
  | positive _ _ _ ih => exact ih
  | bool => trivial
  | float => trivial
  | negativeFloat => trivial
  | int _ hr =>
    simp only [Typed.Literal.IsScalar]
    omega
  | negativeInt _ _ hr =>
    simp only [Typed.Literal.IsScalar]
    omega

theorem Declares.wellTyped {d : Surface.Decl} {t : Typed.Decl} (hk : Scopes.Known [scope])
    (h : Declares scope d t) : t.WellTyped scope := by
  cases h with
  | const _ hv => exact hv.isScalar
  | var _ hv => exact hv.isScalar
  | @unit name params body ss inner span hn hb =>
    have hbody := hb.allWellTyped body (known_params hk hn)
    simp only [List.flatten_cons, List.flatten_nil, List.append_nil] at hbody
    refine ⟨?_, ?_, hbody, by simp⟩
    · simpa [typedParams, Function.comp_def] using hn
    · intro p hp
      obtain ⟨q, -, rfl⟩ := List.mem_map.1 hp
      exact valueType_scalar _
  | @value name params body type result ss x inner span hn hb ht =>
    have hk' := known_params hk hn
    have hbody := hb.allWellTyped body hk'
    have hx := ht.wellTyped (hb.known hk') result
    rw [hb.flatten_eq] at hx
    simp only [List.flatten_cons, List.flatten_nil, List.append_nil] at hbody hx
    refine ⟨?_, ?_, hbody, ?_⟩
    · simpa [typedParams, Function.comp_def] using hn
    · intro p hp
      obtain ⟨q, -, rfl⟩ := List.mem_map.1 hp
      exact valueType_scalar _
    · rintro r ⟨⟩
      exact ⟨hx, ht.type_eq⟩

theorem Declares.name_eq {d : Surface.Decl} {t : Typed.Decl} (h : Declares scope d t) :
    t.name = d.ident.name := by
  cases h <;> rfl

theorem names_eq {ds : List Surface.Decl} {ts : List Typed.Decl}
    (h : List.Forall₂ (Declares scope) ds ts) :
    ts.map Typed.Decl.name = ds.map fun d ↦ d.ident.name := by
  induction h with
  | nil => rfl
  | cons hd _ ih => rw [List.map_cons, List.map_cons, hd.name_eq, ih]

theorem declares_wellTyped (hk : Scopes.Known [scope]) {ds : List Surface.Decl}
    {ts : List Typed.Decl} (h : List.Forall₂ (Declares scope) ds ts) :
    ∀ t ∈ ts, t.WellTyped scope := by
  induction h with
  | nil => simp
  | cons hd _ ih =>
    intro t ht
    rcases List.mem_cons.1 ht with rfl | ht
    · exact hd.wellTyped hk
    · exact ih t ht

theorem Starts.wellTyped (hk : Scopes.Known [scope]) {ds : List Surface.Decl} {t : Typed.Stmt}
    (h : Starts scope ds t) : t.WellTyped scope := by
  cases h with
  | none => trivial
  | @main name body ss inner span hb =>
    have hbody := hb.allWellTyped body hk.enter
    simp only [List.flatten_cons, List.flatten_nil, List.append_nil, List.nil_append] at hbody
    match ss, hbody with
    | [s], hbody => exact hbody.1
    | [], hbody => exact hbody
    | _ :: _ :: _, hbody => exact hbody

theorem WellFormed.wellTyped {program : Surface.Program} {typed : Typed.Program}
    (hs : program.Shaped) (h : WellFormed program typed) : typed.WellTyped := by
  have hk : Scopes.Known [typed.scope] := by
    rw [scope_eq_hoisted h.decls]
    exact known_hoisted hs h.distinct
  have hnames := names_eq h.decls
  have hmem : ∀ t ∈ typed.decls, ∃ d ∈ others program, d.ident.name = t.name := by
    intro t ht
    have hn := List.mem_map_of_mem (f := Typed.Decl.name) ht
    rw [hnames] at hn
    exact List.mem_map.1 hn
  refine ⟨?_, ?_, ?_, declares_wellTyped hk h.decls, h.main.wellTyped hk⟩
  · rw [hnames]
    exact h.distinct.sublist (List.filter_sublist.map _)
  · intro t ht
    obtain ⟨d, hd, hn⟩ := hmem t ht
    rw [← hn]
    simpa using (List.mem_filter.1 hd).2
  · intro t ht
    obtain ⟨d, hd, hn⟩ := hmem t ht
    rw [← hn]
    exact h.not_library d (List.mem_of_mem_filter hd)

end PZero.Typing
