import PZero.Proofs.Lowering.Needs
import PZero.Proofs.Typing.Acceptance

namespace PZero.Lowering

open IR Lower
open Typing (valueDecl decl_cases exists_valueDecl)

def HasValue (ds : List Typed.Decl) (x : Bytes) : Prop :=
  ∃ isConst value, valueDecl isConst x value ∈ ds

def Declares (ds : List Typed.Decl) (m : ModuleDraft) : Prop :=
  ∀ x, x ∈ m.addresses.map Prod.fst ↔ HasValue ds x

theorem hasValue_append {ds ds' : List Typed.Decl} {x : Bytes} :
    HasValue (ds ++ ds') x ↔ HasValue ds x ∨ HasValue ds' x := by
  simp only [HasValue, List.mem_append, exists_or]

theorem HasValue.name_mem {ds : List Typed.Decl} {x : Bytes} (h : HasValue ds x) :
    x ∈ ds.map Typed.Decl.name := by
  obtain ⟨isConst, value, hd⟩ := h
  have hm := List.mem_map_of_mem (f := Typed.Decl.name) hd
  rw [Typing.name_valueDecl] at hm
  exact hm

theorem hasValue_valueDecl {isConst : Bool} {name x : Bytes} {value : Typed.Literal} :
    HasValue [valueDecl isConst name value] x ↔ x = name := by
  constructor
  · intro h
    have hm := h.name_mem
    rw [List.map_singleton, Typing.name_valueDecl, List.mem_singleton] at hm
    exact hm
  · rintro rfl
    exact ⟨isConst, value, List.mem_singleton_self _⟩

theorem not_hasValue_fun {name x : Bytes} {params : List Typed.Param} {body : List Typed.Stmt}
    {result : Option Typed.Result} : ¬HasValue [.fun_ name params body result] x := by
  rintro ⟨isConst, value, hd⟩
  rw [List.mem_singleton] at hd
  cases isConst <;> cases hd

variable {m : ModuleDraft} {Γ : Typing.Scope} {d : Typed.Decl}

theorem addFunction_needs {name : Bytes} {params : List Register} {result : Ty} {code : Lower Unit}
    {xs : List Bytes} (hn : Needs (m.addresses.map Prod.fst) name code [] [] xs)
    (ha : ∀ {s s'}, code s = .ok ((), s') → ∃ added, Adds s s' [] added) :
    match xs.find? (· ∉ m.addresses.map Prod.fst) with
    | none => ∃ m', addFunction (.new name params result) code m = .ok m' ∧
      m'.addresses.map Prod.fst = m.addresses.map Prod.fst
    | some x => addFunction (.new name params result) code m =
        .error (.draft (.unbound x name)) := by
  have hc := hn ⟨m, .new name params result⟩ ⟨rfl, rfl, rfl⟩
  cases hx : xs.find? (· ∉ m.addresses.map Prod.fst) with
  | some x =>
    simp only [hx] at hc
    simp only [addFunction, StateT.run, bind, Except.bind, hc]
  | none =>
    simp only [hx] at hc
    obtain ⟨a, s, hs, hsees⟩ := hc
    obtain ⟨added, hadds⟩ := ha hs
    have hf : s.function.isFinished = false := hadds.isFinished
    simp only [addFunction, StateT.run, bind, Except.bind, hs, Draft.finish, hf, Bool.false_eq_true,
      if_false]
    exact ⟨_, rfl, hsees.globals⟩

theorem lowerDecl_valueDecl {isConst : Bool} {name : Bytes} {value : Typed.Literal}
    (hs : value.IsScalar) : ∃ g : Global, g.name = name ∧
      lowerDecl m (valueDecl isConst name value) = .ok (m.declareGlobal g) := by
  have hv : ∃ c, globalValue (some value) = .ok c := by
    cases value with
    | string text => exact hs.elim
    | bool | int | float => exact ⟨_, rfl⟩
  obtain ⟨c, hc⟩ := hv
  refine ⟨⟨name, c.type, isConst, c⟩, rfl, ?_⟩
  cases isConst <;> exact lowerGlobal_ok.2 ⟨c, hc, rfl⟩

theorem lowerDecl_needs {ds : List Typed.Decl} (hd : d.WellTyped Γ) (hm : Declares ds m) :
    match d.free.find? (· ∉ m.addresses.map Prod.fst) with
    | none => ∃ m', lowerDecl m d = .ok m' ∧ Declares (ds ++ [d]) m'
    | some x => lowerDecl m d = .error ⟨.function d.name, .draft (.unbound x d.name)⟩ := by
  rcases decl_cases hd with ⟨isConst, name, value, hs, rfl⟩ | ⟨name, params, body, result, rfl⟩
  · have hfree : (valueDecl isConst name value).free = [] := by cases isConst <;> rfl
    obtain ⟨g, rfl, hl⟩ := @lowerDecl_valueDecl m isConst name value hs
    rw [hfree]
    refine ⟨_, hl, fun x ↦ ?_⟩
    rw [hasValue_append, hasValue_valueDecl, ← hm x, ModuleDraft.declareGlobal, List.map_cons,
      List.mem_cons, or_comm]
  · obtain ⟨-, hps, -, hres⟩ := id hd
    obtain ⟨registers, hregs, hlen⟩ := paramRegisters_scalar hps
    have htype : ∃ type, resultType result = .ok type := by
      cases result with
      | none => exact ⟨_, rfl⟩
      | some r =>
        obtain ⟨hv, ht⟩ := hres r rfl
        exact typeOf_ok (ht ▸ wellTyped_scalar hv)
    obtain ⟨type, hty⟩ := htype
    have hadd := @addFunction_needs m name registers type _ _ (lowerBody_needs hd hlen)
      lowerBody_adds
    have hl : lowerDecl m (.fun_ name params body result) = locate (.function name)
        (addFunction (.new name registers type) (lowerBody params registers body result) m) := by
      simp only [lowerDecl, lowerFunction, hregs, hty, bind, Except.bind]
    rw [hl]
    cases hx : Typed.Decl.free (.fun_ name params body result) |>.find?
        (· ∉ m.addresses.map Prod.fst) with
    | some x =>
      simp only [hx] at hadd
      rw [hadd]
      rfl
    | none =>
      simp only [hx] at hadd
      obtain ⟨m', hm', haddr⟩ := hadd
      refine ⟨m', locate_ok.2 hm', fun x ↦ ?_⟩
      rw [haddr, hm x, hasValue_append]
      exact ⟨.inl, fun h ↦ h.resolve_right not_hasValue_fun⟩

theorem foldlM_needs {ds before : List Typed.Decl} (hd : ∀ d ∈ ds, d.WellTyped Γ)
    (hm : Declares before m) :
    (∃ m', ds.foldlM lowerDecl m = .ok m' ∧ Declares (before ++ ds) m' ∧
        ∀ ds₁ d ds₂, ds = ds₁ ++ d :: ds₂ → ∀ x ∈ d.free, HasValue (before ++ ds₁) x) ∨
      ∃ ds₁ d ds₂ x, ds = ds₁ ++ d :: ds₂ ∧ x ∈ d.free ∧ ¬HasValue (before ++ ds₁) x ∧
        ds.foldlM lowerDecl m = .error ⟨.function d.name, .draft (.unbound x d.name)⟩ := by
  induction ds generalizing before m with
  | nil =>
    refine .inl ⟨m, rfl, by rwa [List.append_nil], fun ds₁ d ds₂ he ↦ ?_⟩
    simp at he
  | cons d ds ih =>
    obtain ⟨hd₀, hds⟩ := List.forall_mem_cons.1 hd
    have hstep := lowerDecl_needs hd₀ hm
    rw [List.foldlM_cons]
    cases hx : d.free.find? (· ∉ m.addresses.map Prod.fst) with
    | some x =>
      simp only [hx] at hstep
      refine .inr ⟨[], d, ds, x, rfl, List.mem_of_find?_eq_some hx, ?_, ?_⟩
      · have hnot := List.find?_some hx
        rw [List.append_nil, ← hm x]
        simpa using hnot
      · rw [hstep]
        rfl
    | none =>
      simp only [hx] at hstep
      obtain ⟨m₁, hm₁, hdec⟩ := hstep
      have hall : ∀ x ∈ d.free, HasValue before x := by
        intro x hxd
        have hin := List.find?_eq_none.1 hx x hxd
        rw [← hm x]
        simpa using hin
      rw [hm₁]
      rcases ih hds hdec with ⟨m', hfold, hdec', hrest⟩ |
        ⟨ds₁, d', ds₂, x, rfl, hxd, hnot, hfold⟩
      · refine .inl ⟨m', hfold, by rwa [List.append_assoc] at hdec', fun ds₁ e ds₂ he ↦ ?_⟩
        cases ds₁ with
        | nil =>
          cases he
          rwa [List.append_nil]
        | cons d₁ ds₁ =>
          cases he
          have := hrest ds₁ e ds₂ rfl
          rwa [List.append_assoc] at this
      · refine .inr ⟨d :: ds₁, d', ds₂, x, rfl, hxd, ?_, hfold⟩
        rwa [List.append_assoc] at hnot

/-- A function uses a constant or a variable that is declared behind it. -/
def UsesAhead (p : Typed.Program) (g x : Bytes) : Prop :=
  ∃ before d after, p.decls = before ++ d :: after ∧ d.name = g ∧ x ∈ d.free ∧ HasValue after x

variable {p : Typed.Program}

theorem hasValue_of_holds {x : Bytes} (hp : p.WellTyped) (h : Typed.Holds p.scope x) :
    HasValue p.decls x := by
  obtain ⟨isConst, type, hl⟩ := h
  obtain ⟨value, -, -, hd⟩ := exists_valueDecl hp hl
  exact ⟨isConst, value, hd⟩

theorem decls_lower (hp : p.WellTyped) (id : Bytes) :
    (∃ m, p.decls.foldlM lowerDecl (start id) = .ok m ∧ Declares p.decls m ∧
        ∀ g x, ¬UsesAhead p g x) ∨
      ∃ g x, UsesAhead p g x ∧ p.decls.foldlM lowerDecl (start id) =
        .error ⟨.function g, .draft (.unbound x g)⟩ := by
  have hm : Declares [] (start id) := by
    intro x
    refine ⟨fun hx ↦ (List.not_mem_nil hx).elim, ?_⟩
    rintro ⟨isConst, value, hd⟩
    exact (List.not_mem_nil hd).elim
  rcases foldlM_needs hp.decls hm with ⟨m, hfold, hdec, hfree⟩ |
    ⟨ds₁, d, ds₂, x, he, hx, hnot, hfold⟩
  · refine .inl ⟨m, hfold, hdec, ?_⟩
    rintro g x ⟨before, d, after, he, -, hx, hafter⟩
    -- a name has one declaration, so it does not stand both before and behind the function
    have hbefore : HasValue before x := hfree before d after he x hx
    have hn := hp.distinct
    rw [he, List.map_append, List.map_cons] at hn
    exact List.disjoint_of_nodup_append hn hbefore.name_mem
      (List.mem_cons_of_mem _ hafter.name_mem)
  · refine .inr ⟨d.name, x, ⟨ds₁, d, ds₂, he, rfl, hx, ?_⟩, hfold⟩
    have hd : d ∈ p.decls := by
      rw [he]
      simp
    have hv := hasValue_of_holds hp (Typed.Decl.holds_of_free (hp.decls d hd) hx)
    rw [he, hasValue_append] at hv
    have hcons : HasValue ([d] ++ ds₂) x := hv.resolve_left hnot
    refine (hasValue_append.1 hcons).resolve_left ?_
    rcases decl_cases (hp.decls d hd) with ⟨isConst, name, value, -, rfl⟩ |
      ⟨name, params, body, result, rfl⟩
    · cases isConst <;> cases hx
    · exact not_hasValue_fun

theorem lowerMain_of_declares (hp : p.WellTyped) (hm : Declares p.decls m) :
    ∃ m', lowerMain p.main m = .ok m' := by
  have hadd := @addFunction_needs m (ascii "main") [] (.int 32) _ _ (lowerMainBody_needs hp.main)
    lowerMainBody_adds
  have hx : (p.main.free []).find? (· ∉ m.addresses.map Prod.fst) = none := by
    rw [List.find?_eq_none]
    intro x hx
    have hh : Typed.Hides [] p.scope p.scope := fun _ _ ↦ rfl
    have hv := hasValue_of_holds hp (Typed.Stmt.holds_of_free p.main hh hp.main hx)
    simpa using (hm x).2 hv
  simp only [hx] at hadd
  obtain ⟨m', hm', -⟩ := hadd
  exact ⟨m', locate_ok.2 hm'⟩

/-- A checked program is lowered exactly if no function uses a constant or a variable that is
declared behind it; if one does, the fault names the function and the name it does not know. -/
theorem checked_program_lowers_iff {f : File} {p : Typed.Program}
    (hc : Typing.checkFile f = .ok p) (id : Bytes) :
    ((∃ M, lower id p = .ok M) ↔ ∀ g x, ¬UsesAhead p g x) ∧
      ∀ fault, lower id p = .error fault →
        ∃ g x, UsesAhead p g x ∧ fault = ⟨.function g, .draft (.unbound x g)⟩ := by
  have hp := Typing.checkFile_wellTyped hc
  rcases decls_lower hp id with ⟨m, hfold, hdec, hnone⟩ | ⟨g, x, huse, hfold⟩
  · obtain ⟨m', hm'⟩ := lowerMain_of_declares hp hdec
    have hl : lower id p = .ok m'.build := by
      simp only [lower, hfold, hm', bind, Except.bind, pure, Except.pure]
    refine ⟨⟨fun _ ↦ hnone, fun _ ↦ ⟨_, hl⟩⟩, fun fault hf ↦ ?_⟩
    rw [hl] at hf
    cases hf
  · have hl : lower id p = .error ⟨.function g, .draft (.unbound x g)⟩ := by
      simp only [lower, hfold, bind, Except.bind]
    refine ⟨⟨?_, fun hnone ↦ absurd huse (hnone g x)⟩, fun fault hf ↦ ?_⟩
    · rintro ⟨M, hM⟩
      rw [hl] at hM
      cases hM
    · rw [hl] at hf
      cases hf
      exact ⟨g, x, huse, rfl⟩

def early : File :=
  ⟨ascii "early.p0", ascii "fun f():Int\x7breturn g;\x7dlet g=1;fun main()\x7bprint(f());\x7d"⟩

theorem early_is_not_lowered : ∃ p, Typing.checkFile early = .ok p ∧
    UsesAhead p (ascii "f") (ascii "g") ∧ ¬(∃ M, lower [] p = .ok M) ∧
      lower [] p = .error ⟨.function (ascii "f"), .draft (.unbound (ascii "g") (ascii "f"))⟩ := by
  have hrun : (match Typing.checkFile early with
    | .ok p =>
      match lower [] p with
      | .error fault => fault == ⟨.function (ascii "f"), .draft (.unbound (ascii "g") (ascii "f"))⟩
      | .ok _ => false
    | .error _ => false) = true := by decide +kernel
  cases hc : Typing.checkFile early with
  | error ds => simp [hc] at hrun
  | ok p =>
    simp only [hc] at hrun
    obtain ⟨hiff, hfault⟩ := checked_program_lowers_iff hc []
    cases hl : lower [] p with
    | ok M => simp [hl] at hrun
    | error fault =>
      simp only [hl] at hrun
      obtain ⟨g, x, huse, he⟩ := hfault fault hl
      rw [eq_of_beq hrun] at he
      simp only [Fault.mk.injEq, Place.function.injEq, Cause.draft.injEq,
        DraftError.unbound.injEq] at he
      obtain ⟨rfl, rfl, -⟩ := he
      exact ⟨p, rfl, huse, fun h ↦ hiff.1 h _ _ huse, eq_of_beq hrun ▸ hl⟩

end PZero.Lowering
