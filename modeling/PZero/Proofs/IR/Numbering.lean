import PZero.Proofs.IR.Workshop

namespace PZero.IR

/-- What work on a draft does to its numbers. -/
inductive Moves (d d' : Draft) : Reply → Prop
  | register {r : Register} (name : r.name = Bytes.ofNat d.nextRegister)
    (next : d'.nextRegister = d.nextRegister + 1) (label : d'.nextLabel = d.nextLabel) :
    Moves d d' (.register r)
  | label {name : Bytes} (number : labelNumber name = d.nextLabel)
    (next : d'.nextLabel = d.nextLabel + 1) (register : d'.nextRegister = d.nextRegister) :
    Moves d d' (.label name)
  | other {reply : Reply} (noRegister : ∀ r, reply ≠ .register r)
    (noLabel : ∀ name, reply ≠ .label name) (register : d'.nextRegister = d.nextRegister)
    (label : d'.nextLabel = d.nextLabel) : Moves d d' reply

namespace Workshop

theorem perform_moves (m : ModuleDraft) (d : Draft) (work : Work) :
    Moves d (perform m d work).2.2 (perform m d work).1 := by
  cases work with
  | produce p =>
    obtain ⟨-, he⟩ | ⟨-, r, d', instr, he, -, -, hname, hnext, hlabel⟩ := p.perform_eq d
    · simp only [perform, he]
      exact .other (by simp) (by simp) rfl rfl
    · simp only [perform, he]
      exact .register hname hnext hlabel
  | emit e =>
    obtain ⟨_, -, -, hr, hl⟩ := e.perform_eq d
    exact .other (by simp [perform]) (by simp [perform]) hr hl
  | newLabel stem => exact .label (labelNumber_newLabel stem d) rfl rfl
  | openScope => exact .other (by simp [perform]) (by simp [perform]) rfl rfl
  | closeScope =>
    simp only [perform, Draft.closeScope]
    cases d.scopes <;> exact .other (by simp) (by simp) rfl rfl
  | bindName name x =>
    have hr : (d.bindName name x).nextRegister = d.nextRegister := by
      unfold Draft.bindName
      split <;> rfl
    have hl : (d.bindName name x).nextLabel = d.nextLabel := by
      unfold Draft.bindName
      split <;> rfl
    exact .other (by simp [perform]) (by simp [perform]) hr hl
  | operand name =>
    simp only [perform]
    cases d.operand name m <;> exact .other (by simp) (by simp) rfl rfl
  | finish =>
    simp only [perform, Draft.finish]
    cases d.isFinished <;> exact .other (by simp) (by simp) rfl rfl

end Workshop

/-- The registers and labels that a function returns on the way from one workshop to another, by
their numbers. -/
structure Counts (i : Nat) (w w' : Workshop) (log : List Event) : Prop where
  registers : ∃ n, (registers i log).map Register.name =
    (List.range' (w.nextRegister i) n).map Bytes.ofNat ∧ w'.nextRegister i = w.nextRegister i + n
  labels : ∃ n, (freshLabels i log).map labelNumber = List.range' (w.nextLabel i) n ∧
    w'.nextLabel i = w.nextLabel i + n

namespace Counts

variable {i : Nat} {w w₁ w₂ : Workshop} {log log' : List Event}

theorem refl (i : Nat) (w : Workshop) : Counts i w w [] := ⟨⟨0, rfl, rfl⟩, ⟨0, rfl, rfl⟩⟩

theorem trans (h : Counts i w w₁ log) (h' : Counts i w₁ w₂ log') :
    Counts i w w₂ (log ++ log') := by
  obtain ⟨⟨n, hn, hw⟩, k, hk, hl⟩ := h
  obtain ⟨⟨n', hn', hw'⟩, k', hk', hl'⟩ := h'
  refine ⟨⟨n + n', ?_, by omega⟩, k + k', ?_, by omega⟩
  · rw [PZero.IR.registers, List.filterMap_append, List.map_append, ← PZero.IR.registers,
      ← PZero.IR.registers, hn, hn', hw, ← List.map_append, List.range'_append_1]
  · rw [freshLabels, List.filterMap_append, List.map_append, ← freshLabels, ← freshLabels, hk, hk',
      hl, List.range'_append_1]

end Counts

namespace Workshop

variable (w : Workshop) (i : Nat)

theorem counts_of_quiet {w w' : Workshop} {e : Event} {i : Nat} (hr : e.register? i = none)
    (hl : e.label? i = none) (hregister : w'.nextRegister i = w.nextRegister i)
    (hlabel : w'.nextLabel i = w.nextLabel i) : Counts i w w' [e] := by
  refine ⟨⟨0, ?_, hregister⟩, 0, ?_, hlabel⟩
  · rw [registers, List.filterMap_cons_none hr]
    rfl
  · rw [freshLabels, List.filterMap_cons_none hl]
    rfl

theorem counts_of_moves {w w' : Workshop} {d d' : Draft} {i : Nat} {e : Event} {work : Work}
    (h : Moves d d' e.reply) (ha : e.action = .workOn i work) (hd : w.functions[i]? = some d)
    (hd' : w'.functions[i]? = some d') : Counts i w w' [e] := by
  have hr : w.nextRegister i = d.nextRegister := by simp [nextRegister, hd]
  have hr' : w'.nextRegister i = d'.nextRegister := by simp [nextRegister, hd']
  have hl : w.nextLabel i = d.nextLabel := by simp [nextLabel, hd]
  have hl' : w'.nextLabel i = d'.nextLabel := by simp [nextLabel, hd']
  obtain ⟨action, reply, before, after⟩ := e
  subst ha
  cases h with
  | register name next label =>
    refine ⟨⟨1, ?_, by omega⟩, 0, rfl, by omega⟩
    simp [registers, Event.register?, name, hr]
  | label number next register =>
    refine ⟨⟨0, rfl, by omega⟩, 1, ?_, by omega⟩
    simp [freshLabels, Event.label?, number, hl]
  | other noRegister noLabel register label =>
    refine counts_of_quiet ?_ ?_ (by omega) (by omega)
    · cases reply <;> first | rfl | exact absurd rfl (noRegister _)
    · cases reply <;> first | rfl | exact absurd rfl (noLabel _)

theorem getD_declare (f : Draft → Nat) (d : Draft) :
    ((w.functions ++ [d])[i]?.map f).getD (f d) = (w.functions[i]?.map f).getD (f d) := by
  rcases Nat.lt_trichotomy i w.functions.length with h | rfl | h
  · rw [List.getElem?_append_left h]
  · simp
  · rw [List.getElem?_eq_none (by simp; omega), List.getElem?_eq_none (by omega)]

theorem step_counts (a : Action) :
    Counts i w (w.step a).2 [⟨a, (w.step a).1, w, (w.step a).2⟩] := by
  cases a with
  | declareExternal e => exact counts_of_quiet rfl rfl rfl rfl
  | declareGlobal g => exact counts_of_quiet rfl rfl rfl rfl
  | intern text => exact counts_of_quiet rfl rfl rfl rfl
  | declareFunction name params result =>
    exact counts_of_quiet rfl rfl (w.getD_declare i Draft.nextRegister (.new name params result))
      (w.getD_declare i Draft.nextLabel (.new name params result))
  | workOn j work =>
    cases hj : w.functions[j]? with
    | none =>
      simp only [step, hj]
      exact counts_of_quiet rfl rfl rfl rfl
    | some d =>
      have hlt : j < w.functions.length := (List.getElem?_eq_some_iff.1 hj).1
      simp only [step, hj]
      by_cases hij : i = j
      · subst hij
        exact counts_of_moves (perform_moves w.module d work) rfl hj (List.getElem?_set_self hlt)
      · have hsame : (w.functions.set j (perform w.module d work).2.2)[i]? = w.functions[i]? :=
          List.getElem?_set_ne (Ne.symm hij)
        refine counts_of_quiet ?_ ?_ ?_ ?_
        · simp only [Event.register?]
          split <;> simp_all
        · simp only [Event.label?]
          split <;> simp_all
        · simp only [nextRegister, hsame]
        · simp only [nextLabel, hsame]

theorem run_counts (actions : List Action) : ∃ w', Counts i w w' (w.run actions) := by
  induction actions generalizing w with
  | nil => exact ⟨w, .refl i w⟩
  | cons a rest ih =>
    obtain ⟨w', h⟩ := ih (w.step a).2
    exact ⟨w', (w.step_counts i a).trans h⟩

theorem mem_run {w : Workshop} {actions : List Action} {e : Event} (h : e ∈ w.run actions) :
    e = ⟨e.action, (e.before.step e.action).1, e.before, (e.before.step e.action).2⟩ := by
  induction actions generalizing w with
  | nil => cases h
  | cons a rest ih =>
    obtain rfl | h := List.mem_cons.1 h
    · rfl
    · exact ih h

theorem body_set {w w' : Workshop} {d : Draft} {i : Nat} (hi : i < w.functions.length)
    (h : w'.functions = w.functions.set i d) :
    w'.body i = d.body ∧ ∀ j, j ≠ i → w'.body j = w.body j := by
  unfold body
  rw [h]
  refine ⟨?_, fun j hj ↦ ?_⟩
  · rw [List.getElem?_set_self hi]
    rfl
  · rw [List.getElem?_set_ne (Ne.symm hj)]

theorem appends_of_perform {w : Workshop} {d : Draft} {i : Nat} {work : Work} {instr : Instr}
    (hd : w.functions[i]? = some d)
    (h : (perform w.module d work).2.2.body = d.body ++ [instr]) :
    Event.Appends ⟨.workOn i work, (w.step (.workOn i work)).1, w, (w.step (.workOn i work)).2⟩ i
      instr := by
  have hi : i < w.functions.length := (List.getElem?_eq_some_iff.1 hd).1
  have hstep : (w.step (.workOn i work)).2.functions =
      w.functions.set i (perform w.module d work).2.2 := by simp only [step, hd]
  obtain ⟨hself, hothers⟩ := body_set hi hstep
  refine ⟨?_, hothers⟩
  have hbody : w.body i = d.body := by simp [body, hd]
  show (w.step (.workOn i work)).2.body i = w.body i ++ [instr]
  rw [hself, h, hbody]

end Workshop

/-- The registers of each function are numbered from zero, its labels are different from each other
and from that of its first block, and each call appends one instruction: a producer, unless it is a
merge of no values, one that defines the register it returns, and an emitter one that defines
none. -/
theorem numbering_never_collides (id : Bytes) (actions : List Action) :
    let log := (Workshop.new id).run actions
    (∀ i, (registers i log).map Register.name =
        (List.range (registers i log).length).map Bytes.ofNat) ∧
    (∀ i, (freshLabels i log).Nodup ∧ Draft.entry ∉ freshLabels i log) ∧
    (∀ e ∈ log, ∀ i p, e.action = .workOn i (.produce p) → i < e.before.functions.length →
      p ≠ .phi [] →
      ∃ r instr, e.reply = .register r ∧ instr.result? = some r ∧ e.Appends i instr) ∧
    (∀ e ∈ log, ∀ i p, e.action = .workOn i (.emit p) → i < e.before.functions.length →
      ∃ instr, e.reply = .done ∧ instr.result? = none ∧ e.Appends i instr ∧
        e.after.nextRegister i = e.before.nextRegister i) := by
  refine ⟨fun i ↦ ?_, fun i ↦ ?_, fun e he i p ha hi hp ↦ ?_, fun e he i p ha hi ↦ ?_⟩
  · obtain ⟨w', ⟨n, hn, -⟩, -⟩ := (Workshop.new id).run_counts i actions
    have hlen : (registers i ((Workshop.new id).run actions)).length = n := by
      simpa using congrArg List.length hn
    rw [hn, hlen, List.range_eq_range']
    rfl
  · obtain ⟨w', -, n, hn, -⟩ := (Workshop.new id).run_counts i actions
    refine ⟨List.Nodup.of_map labelNumber (hn ▸ List.nodup_range'), fun hm ↦ ?_⟩
    have h0 : labelNumber Draft.entry ∈ List.range' ((Workshop.new id).nextLabel i) n :=
      hn ▸ List.mem_map_of_mem hm
    have hfirst : (Workshop.new id).nextLabel i = 1 := rfl
    rw [labelNumber_entry, List.mem_range'_1] at h0
    omega
  · have hd := List.getElem?_eq_getElem hi
    rw [Workshop.mem_run he, ha]
    obtain ⟨hnil, -⟩ | ⟨-, r, d', instr, hperform, hbody, hresult, -⟩ :=
      p.perform_eq e.before.functions[i]
    · exact absurd hnil hp
    refine ⟨r, instr, ?_, hresult, Workshop.appends_of_perform hd ?_⟩
    · simp only [Workshop.step, hd, Workshop.perform, hperform]
    · simp only [Workshop.perform, hperform]
      exact hbody
  · have hd := List.getElem?_eq_getElem hi
    rw [Workshop.mem_run he, ha]
    obtain ⟨instr, hbody, hresult, hregister, -⟩ := p.perform_eq e.before.functions[i]
    refine ⟨instr, ?_, hresult, Workshop.appends_of_perform hd hbody, ?_⟩
    · simp only [Workshop.step, hd, Workshop.perform]
    · simp only [Workshop.nextRegister, Workshop.step, hd, Workshop.perform,
        List.getElem?_set_self hi, Option.map_some, hregister]

end PZero.IR
