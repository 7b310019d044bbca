import PZero.Proofs.IR.Pool
import PZero.Proofs.IR.Workshop

namespace PZero.IR

def Global.isPooled (g : Global) : Bool := Bytes.startsWith g.name (ascii ".str.")

def Workshop.after (w : Workshop) : List Action → Workshop
  | [] => w
  | a :: rest => (w.step a).2.after rest

theorem isPooled_poolGlobal (n : Nat) (text : Bytes) :
    (ModuleDraft.poolGlobal n text).isPooled = true :=
  List.isPrefixOf_iff_prefix.2 (List.prefix_append (ascii ".str.") (Bytes.ofInt n))

theorem filter_isPooled_pooledFrom (k : Nat) (texts : List Bytes) :
    (pooledFrom k texts).filter Global.isPooled = pooledFrom k texts := by
  rw [List.filter_eq_self]
  intro g hg
  obtain ⟨i, text, -, rfl⟩ := mem_pooledFrom.1 hg
  exact isPooled_poolGlobal (k + i) text

theorem filter_name {globals : List Global} {g : Global} (hn : (globals.map Global.name).Nodup)
    (hg : g ∈ globals) : globals.filter (·.name = g.name) = [g] := by
  induction globals with
  | nil => cases hg
  | cons x globals ih =>
    rw [List.map_cons, List.nodup_cons] at hn
    obtain rfl | hg := List.mem_cons.1 hg
    · have hrest : globals.filter (·.name = g.name) = [] := by
        rw [List.filter_eq_nil_iff]
        intro y hy he
        exact hn.1 (of_decide_eq_true he ▸ List.mem_map_of_mem hy)
      rw [List.filter_cons_of_pos (by simp), hrest]
    · have hx : x.name ≠ g.name := fun he ↦ hn.1 (he ▸ List.mem_map_of_mem hg)
      rw [List.filter_cons_of_neg (by simp [hx]), ih hn.2 hg]

/-- The pool of a module holds every string once, and the globals with a name of the pool are those
of its strings. -/
structure ModuleDraft.Pooled (m : ModuleDraft) : Prop where
  distinct : m.pool.Nodup
  globals : m.globals.filter Global.isPooled = pooledFrom 0 m.pool

namespace ModuleDraft.Pooled

variable {m : ModuleDraft} {text : Bytes}

theorem new (id : Bytes) : (ModuleDraft.new id).Pooled := ⟨List.nodup_nil, rfl⟩

theorem declareGlobal {g : Global} (h : m.Pooled) (hg : g.isPooled = false) :
    (m.declareGlobal g).Pooled where
  distinct := h.distinct
  globals := by
    have hone : [g].filter Global.isPooled = [] := List.filter_cons_of_neg (by simp [hg])
    rw [ModuleDraft.declareGlobal, List.filter_append, hone, List.append_nil]
    exact h.globals

theorem withPool (h : m.Pooled) (ht : text ∉ m.pool) : (m.withPool [text]).Pooled where
  distinct := List.nodup_append.2 ⟨h.distinct, List.nodup_singleton text, fun a ha b hb he ↦
    ht (List.mem_singleton.1 hb ▸ he ▸ ha)⟩
  globals := by
    rw [ModuleDraft.withPool, List.filter_append, h.globals, filter_isPooled_pooledFrom,
      pooledFrom_append, Nat.zero_add]

theorem intern (h : m.Pooled) (text : Bytes) : (m.intern text).2.Pooled := by
  obtain ⟨n, -, hi⟩ | ⟨ht, hi⟩ := m.intern_cases text <;> rw [hi]
  · exact h
  · exact h.withPool ht

theorem filter_name {n : Nat} (h : m.Pooled) (ht : m.pool[n]? = some text) :
    m.globals.filter (·.name = (poolGlobal n text).name) = [poolGlobal n text] := by
  have hmem : poolGlobal n text ∈ pooledFrom 0 m.pool :=
    mem_pooledFrom.2 ⟨n, text, ht, by rw [Nat.zero_add]⟩
  rw [← IR.filter_name (pooledFrom_nodup 0 m.pool) hmem, ← h.globals, List.filter_filter]
  refine List.filter_congr fun g _ ↦ ?_
  by_cases hg : g.name = (poolGlobal n text).name
  · have hp : g.isPooled = true := by
      rw [Global.isPooled, hg]
      exact isPooled_poolGlobal n text
    rw [hp, Bool.and_true]
  · rw [decide_eq_false hg, Bool.false_and]

end ModuleDraft.Pooled

/-- What a stretch of actions does to the pool: strings are only added, those that are interned, and
the reference to each of them is that of its global. -/
structure Interns (w w' : Workshop) (log : List Event) : Prop where
  grows : w.module.pool <+: w'.module.pool
  origin : ∀ text ∈ w'.module.pool, text ∈ w.module.pool ∨ ∃ e ∈ log, e.action = .intern text
  replies : ∀ e ∈ log, ∀ text, e.action = .intern text → ∃ n, w'.module.pool[n]? = some text ∧
    e.reply = .operand (.const (ModuleDraft.poolGlobal n text).ref)

namespace Interns

variable {w w₁ w₂ : Workshop} {log log' : List Event}

theorem refl (w : Workshop) : Interns w w [] :=
  ⟨List.prefix_rfl, fun _ h ↦ .inl h, fun _ he ↦ (List.not_mem_nil he).elim⟩

theorem trans (h : Interns w w₁ log) (h' : Interns w₁ w₂ log') : Interns w w₂ (log ++ log') where
  grows := h.grows.trans h'.grows
  origin text ht := by
    obtain ht | ⟨e, he, ha⟩ := h'.origin text ht
    · obtain ht | ⟨e, he, ha⟩ := h.origin text ht
      · exact .inl ht
      · exact .inr ⟨e, List.mem_append_left _ he, ha⟩
    · exact .inr ⟨e, List.mem_append_right _ he, ha⟩
  replies e he text ha := by
    obtain he | he := List.mem_append.1 he
    · obtain ⟨n, hn, hr⟩ := h.replies e he text ha
      obtain ⟨hlt, ht⟩ := List.getElem?_eq_some_iff.1 hn
      exact ⟨n, ht ▸ List.prefix_iff_getElem?.1 h'.grows n hlt, hr⟩
    · exact h'.replies e he text ha

theorem of_pool_eq {e : Event} (hp : w₁.module.pool = w.module.pool)
    (he : ∀ text, e.action ≠ .intern text) : Interns w w₁ [e] where
  grows := hp ▸ List.prefix_rfl
  origin _ ht := .inl (hp ▸ ht)
  replies _ he' text ha := absurd ha (List.mem_singleton.1 he' ▸ he text)

end Interns

namespace Workshop

theorem perform_module (m : ModuleDraft) (d : Draft) (work : Work) :
    ∃ functions, (perform m d work).2.1 = { m with functions } := by
  cases work with
  | produce p =>
    simp only [perform]
    cases p.perform d <;> exact ⟨m.functions, rfl⟩
  | closeScope =>
    simp only [perform]
    cases d.closeScope <;> exact ⟨m.functions, rfl⟩
  | operand name =>
    simp only [perform]
    cases d.operand name m <;> exact ⟨m.functions, rfl⟩
  | finish =>
    simp only [perform, Draft.finish]
    cases d.isFinished
    · exact ⟨m.functions ++ [⟨d.name, d.params, d.result, d.body⟩], rfl⟩
    · exact ⟨m.functions, rfl⟩
  | _ => exact ⟨m.functions, rfl⟩

theorem step_workOn_module (w : Workshop) (i : Nat) (work : Work) :
    ∃ functions, (w.step (.workOn i work)).2.module = { w.module with functions } := by
  simp only [step]
  cases w.functions[i]? with
  | none => exact ⟨w.module.functions, rfl⟩
  | some d => exact perform_module w.module d work

theorem step_pooled {w : Workshop} {a : Action} (h : w.module.Pooled)
    (ha : ∀ g, a = .declareGlobal g → g.isPooled = false) : (w.step a).2.module.Pooled := by
  cases a with
  | declareGlobal g => exact h.declareGlobal (ha g rfl)
  | intern text => exact h.intern text
  | workOn i work =>
    obtain ⟨functions, hm⟩ := w.step_workOn_module i work
    rw [hm]
    exact ⟨h.distinct, h.globals⟩
  | _ => exact ⟨h.distinct, h.globals⟩

theorem step_interns (w : Workshop) (a : Action) :
    Interns w (w.step a).2 [⟨a, (w.step a).1, w, (w.step a).2⟩] := by
  cases a with
  | intern text =>
    have hreply : ∀ n m', w.module.intern text = ((ModuleDraft.poolGlobal n text).ref, m') →
        m'.pool[n]? = some text → ∀ t, Action.intern text = .intern t →
          ∃ n, (w.step (.intern text)).2.module.pool[n]? = some t ∧ (w.step (.intern text)).1 =
            .operand (.const (ModuleDraft.poolGlobal n t).ref) := by
      intro n m' hi hn t ht
      cases ht
      exact ⟨n, by simp only [step, hi, hn], by simp only [step, hi]⟩
    have hstep : (w.step (.intern text)).2.module = (w.module.intern text).2 := rfl
    obtain ⟨n, hn, hi⟩ | ⟨ht, hi⟩ := w.module.intern_cases text
    · refine ⟨?_, fun t ht ↦ .inl ?_, fun e he ↦ ?_⟩
      · have hm : (w.step (.intern text)).2.module = w.module := by rw [hstep, hi]
        exact hm.symm ▸ List.prefix_rfl
      · rwa [hstep, hi] at ht
      · rw [List.mem_singleton.1 he]
        exact hreply n _ hi hn
    · refine ⟨?_, fun t ht ↦ ?_, fun e he ↦ ?_⟩
      · rw [hstep, hi]
        exact List.prefix_append _ [text]
      · rw [hstep, hi] at ht
        obtain ht | ht := List.mem_append.1 ht
        · exact .inl ht
        · exact .inr ⟨_, List.mem_singleton_self _, List.mem_singleton.1 ht ▸ rfl⟩
      · rw [List.mem_singleton.1 he]
        exact hreply w.module.pool.length _ hi (by simp [ModuleDraft.withPool])
  | workOn i work =>
    obtain ⟨functions, hm⟩ := w.step_workOn_module i work
    exact .of_pool_eq (by rw [hm]) fun _ ↦ by simp
  | _ => exact .of_pool_eq rfl fun _ ↦ by simp

theorem run_interns (w : Workshop) (actions : List Action) :
    Interns w (w.after actions) (w.run actions) := by
  induction actions generalizing w with
  | nil => exact .refl w
  | cons a rest ih => exact (w.step_interns a).trans (ih (w.step a).2)

theorem after_pooled {w : Workshop} {actions : List Action} (h : w.module.Pooled)
    (ha : ∀ g, .declareGlobal g ∈ actions → g.isPooled = false) :
    (w.after actions).module.Pooled := by
  induction actions generalizing w with
  | nil => exact h
  | cons a rest ih =>
    have hstep := step_pooled h fun g hg ↦ ha g (hg ▸ List.mem_cons_self)
    exact ih hstep fun g hg ↦ ha g (List.mem_cons_of_mem a hg)

end Workshop

/-- As long as no global is declared with a name of the pool, strings are equal exactly where the
references to them are. In the module that is built, a string has one global with the name of its
reference, a constant of the type that the reference points to, with the bytes of the string; the
globals with a name of the pool are those of the strings that were interned, and no two of them have
one name. -/
theorem interning_is_exact (id : Bytes) (actions : List Action)
    (ha : ∀ g, .declareGlobal g ∈ actions → g.isPooled = false) :
    let log := (Workshop.new id).run actions
    let M := ((Workshop.new id).after actions).module.build
    (∀ e ∈ log, ∀ e' ∈ log, ∀ text text', e.action = .intern text → e'.action = .intern text' →
      (e.reply = e'.reply ↔ text = text')) ∧
    (∀ e ∈ log, ∀ text, e.action = .intern text → ∃ name type,
      e.reply = .operand (.const (.global name (.ptr type))) ∧
        M.globals.filter (·.name = name) = [⟨name, type, true, .cString text⟩]) ∧
    (∃ texts, texts.Nodup ∧ (∀ text, text ∈ texts ↔ ∃ e ∈ log, e.action = .intern text) ∧
      M.globals.filter Global.isPooled = pooledFrom 0 texts) ∧
    ((M.globals.filter Global.isPooled).map Global.name).Nodup := by
  have hp := Workshop.after_pooled (w := .new id) (.new id) ha
  have hi := (Workshop.new id).run_interns actions
  refine ⟨fun e he e' he' text text' ht ht' ↦ ?_, fun e he text ht ↦ ?_, ?_, ?_⟩
  · obtain ⟨n, hn, hr⟩ := hi.replies e he text ht
    obtain ⟨n', hn', hr'⟩ := hi.replies e' he' text' ht'
    rw [hr, hr']
    constructor
    · intro h
      simp only [Reply.operand.injEq, Operand.const.injEq, Global.ref, Constant.global.injEq] at h
      obtain rfl := Symbol.pooled_inj h.1
      exact Option.some.inj (hn.symm.trans hn')
    · rintro rfl
      have hlt := (List.getElem?_eq_some_iff.1 hn).1
      obtain rfl := (List.getElem?_inj hlt hp.distinct).1 (hn.trans hn'.symm)
      rfl
  · obtain ⟨n, hn, hr⟩ := hi.replies e he text ht
    exact ⟨_, _, hr, hp.filter_name hn⟩
  · refine ⟨_, hp.distinct, fun text ↦ ⟨fun ht ↦ ?_, fun ⟨e, he, ht⟩ ↦ ?_⟩, hp.globals⟩
    · obtain ht | he := hi.origin text ht
      · cases ht
      · exact he
    · obtain ⟨n, hn, -⟩ := hi.replies e he text ht
      exact List.mem_of_getElem? hn
  · change ((((Workshop.new id).after actions).module.globals.filter
      Global.isPooled).map Global.name).Nodup
    rw [hp.globals]
    exact pooledFrom_nodup 0 _

/-- Two strings, one of them interned twice, with a global and a function in between. -/
def sharing : List Action :=
  [.intern (ascii "b"), .declareGlobal ⟨ascii "s", .int 32, false, .int32 5⟩, .intern [],
    .declareFunction (ascii "f") [] .void, .workOn 0 .finish, .intern (ascii "b")]

theorem sharing_is_exact :
    (∀ g, .declareGlobal g ∈ sharing → g.isPooled = false) ∧
      ((Workshop.new []).after sharing).module.build.globals.map Global.name =
        [ascii ".str.0", ascii "s", ascii ".str.1"] ∧
      ∀ e ∈ (Workshop.new []).run sharing, ∀ text, e.action = .intern text → ∃ name type,
        e.reply = .operand (.const (.global name (.ptr type))) ∧
          ((Workshop.new []).after sharing).module.build.globals.filter (·.name = name) =
            [⟨name, type, true, .cString text⟩] := by
  have ha : ∀ g, .declareGlobal g ∈ sharing → g.isPooled = false := by
    intro g hg
    simp only [sharing, List.mem_cons, reduceCtorEq, List.not_mem_nil, or_false, false_or,
      Action.declareGlobal.injEq] at hg
    rw [hg]
    decide
  exact ⟨ha, by decide, (interning_is_exact [] sharing ha).2.1⟩

end PZero.IR
