import PZero.Proofs.Lowering.Growth
import PZero.Proofs.Typing.Judgement

namespace PZero

open IR

def Typed.Decl.global? : Decl → Option Global
  | .const name value =>
    (Lowering.globalValue value).toOption.map fun c ↦ ⟨name, c.type, true, c⟩
  | .var name value =>
    (Lowering.globalValue value).toOption.map fun c ↦ ⟨name, c.type, false, c⟩
  | _ => none

theorem Typed.Decl.name_of_global? {d : Decl} {g : Global} (h : d.global? = some g) :
    g.name = d.name := by
  cases d with
  | const | var =>
    obtain ⟨c, -, rfl⟩ := Option.map_eq_some_iff.1 h
    rfl
  | fun_ | missing => cases h

def IR.ModuleDraft.withFunction (m : ModuleDraft) (F : Function) : ModuleDraft :=
  { m with functions := m.functions ++ [F] }

namespace Lowering

variable {m m' : ModuleDraft}

theorem locate_ok {α : Type} {place : Place} {result : Except Cause α} {a : α} :
    locate place result = .ok a ↔ result = .ok a := by
  cases result <;> simp [locate, Except.mapError]

theorem lowerGlobal_ok {isConst : Bool} {name : Bytes} {value : Option Typed.Literal} :
    lowerGlobal isConst name value m = .ok m' ↔ ∃ c, globalValue value = .ok c ∧
      m' = m.declareGlobal ⟨name, c.type, isConst, c⟩ := by
  cases hv : globalValue value with
  | error e => simp [lowerGlobal, locate, hv, Except.mapError, bind, Except.bind]
  | ok c =>
    simp [lowerGlobal, locate, hv, Except.mapError, bind, Except.bind, pure, Except.pure, eq_comm]

theorem addFunction_ok {name : Bytes} {params : List Register} {result : Ty} {code : Lower Unit}
    (hcode : ∀ {s s'}, code s = .ok ((), s') → ∃ added, Adds s s' [] added)
    (h : addFunction (.new name params result) code m = .ok m') :
    ∃ s, code ⟨m, .new name params result⟩ = .ok ((), s) ∧
      m' = s.module.withFunction ⟨name, params, result, s.function.body⟩ := by
  unfold addFunction at h
  change Except.bind (code ⟨m, .new name params result⟩) _ = _ at h
  cases hc : code ⟨m, .new name params result⟩ with
  | error e => simp [hc, Except.bind] at h
  | ok r =>
    obtain ⟨⟨⟩, s⟩ := r
    obtain ⟨added, ha⟩ := hcode hc
    have hf : s.function.isFinished = false := ha.isFinished
    have hn : s.function.name = name := ha.name
    have hp : s.function.params = params := ha.params
    have hr : s.function.result = result := ha.result
    simp only [hc, Except.bind, Draft.finish, hf, Bool.false_eq_true, if_false, hn, hp, hr] at h
    cases h
    exact ⟨s, rfl, rfl⟩

theorem lowerDecl_ok {d : Typed.Decl} (h : lowerDecl m d = .ok m') :
    (∃ g, d.global? = some g ∧ m' = m.declareGlobal g) ∨
      ∃ name params body result, ∃ F : Function, ∃ s, d = .fun_ name params body result ∧
        F.name = name ∧ paramRegisters params = .ok F.params ∧ resultType result = .ok F.result ∧
        lowerBody params F.params body result ⟨m, .new F.name F.params F.result⟩ = .ok ((), s) ∧
        F.body = s.function.body ∧ m' = s.module.withFunction F := by
  cases d with
  | const name value =>
    obtain ⟨c, hc, rfl⟩ := lowerGlobal_ok.1 h
    exact .inl ⟨_, by simp [Typed.Decl.global?, hc, Except.toOption], rfl⟩
  | var name value =>
    obtain ⟨c, hc, rfl⟩ := lowerGlobal_ok.1 h
    exact .inl ⟨_, by simp [Typed.Decl.global?, hc, Except.toOption], rfl⟩
  | missing => cases h
  | fun_ name params body result =>
    simp only [lowerDecl, lowerFunction, locate_ok] at h
    cases hp : paramRegisters params with
    | error e => simp [hp, bind, Except.bind] at h
    | ok registers =>
      cases ht : resultType result with
      | error e => simp [hp, ht, bind, Except.bind] at h
      | ok type =>
        simp only [hp, ht, bind, Except.bind] at h
        obtain ⟨s, hs, rfl⟩ := addFunction_ok lowerBody_adds h
        exact .inr ⟨name, params, body, result, ⟨name, registers, type, s.function.body⟩, s, rfl,
          rfl, hp, ht, hs, rfl, rfl⟩

theorem lowerMain_ok {body : Typed.Stmt} (h : lowerMain body m = .ok m') :
    ∃ F : Function, ∃ s, F.name = ascii "main" ∧ F.params = [] ∧ F.result = .int 32 ∧
      lowerMainBody body ⟨m, .new F.name F.params F.result⟩ = .ok ((), s) ∧
      F.body = s.function.body ∧ m' = s.module.withFunction F := by
  simp only [lowerMain, locate_ok] at h
  obtain ⟨s, hs, rfl⟩ := addFunction_ok lowerMainBody_adds h
  exact ⟨⟨ascii "main", [], .int 32, s.function.body⟩, s, rfl, rfl, rfl, hs, rfl, rfl⟩

theorem lower_ok {id : Bytes} {p : Typed.Program} {M : IR.Module} (h : lower id p = .ok M) :
    ∃ m m', p.decls.foldlM lowerDecl (start id) = .ok m ∧ lowerMain p.main m = .ok m' ∧
      M = m'.build := by
  simp only [lower] at h
  cases hd : p.decls.foldlM lowerDecl (start id) with
  | error e => simp [hd, bind, Except.bind] at h
  | ok m =>
    cases hm : lowerMain p.main m with
    | error e => simp [hd, hm, bind, Except.bind] at h
    | ok m' =>
      simp only [hd, hm, bind, Except.bind, pure, Except.pure, Except.ok.injEq] at h
      exact ⟨m, m', rfl, hm, h.symm⟩

/-- What every declaration keeps holds behind all of them. The declarations that are lowered already
are those before. -/
theorem foldlM_lowerDecl {P : List Typed.Decl → ModuleDraft → Prop} {all : List Typed.Decl}
    (hstep : ∀ {before d rest m m'}, all = before ++ d :: rest → P before m →
      lowerDecl m d = .ok m' → P (before ++ [d]) m') :
    ∀ {ds before : List Typed.Decl} {m m' : ModuleDraft}, all = before ++ ds → P before m →
      ds.foldlM lowerDecl m = .ok m' → P all m'
  | [], before, m, m', ha, hp, h => by
    cases h
    rw [ha, List.append_nil]
    exact hp
  | d :: ds, before, m, m', ha, hp, h => by
    rw [List.foldlM_cons] at h
    cases hd : lowerDecl m d with
    | error e => simp [hd, bind, Except.bind] at h
    | ok m₁ =>
      simp only [hd, bind, Except.bind] at h
      have ha' : all = (before ++ [d]) ++ ds := by rw [ha, List.append_assoc]; rfl
      exact foldlM_lowerDecl hstep ha' (hstep ha hp hd) h

end Lowering

end PZero
