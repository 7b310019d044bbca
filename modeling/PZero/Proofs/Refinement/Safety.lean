import PZero.Proofs.Machine.Limit
import PZero.Proofs.Refinement.Outcome

namespace PZero.Machine

/-- The sessions that calls of `main` lead to. -/
inductive Session.Reaches (start : Session) : Session → Prop
  | refl : start.Reaches start
  | main {session : Session} {fuel : Nat} {ended : Ended} (h : start.Reaches session)
    (he : session.main fuel = some ended) : start.Reaches ended.session

/-- What may stop a program that does not go wrong. -/
def Image.faults (image : Image) : List Fault :=
  [.divisionByZero, .divisionOverflow, .stepLimit image.maxSteps.toInt, .depthLimit image.maxDepth]

def Image.Expects (image : Image) (status : Except Failure Int) : Prop :=
  status = .ok 0 ∨ ∃ failure, status = .error failure ∧ failure.fault ∈ image.faults ∧
    failure.fault.isTrap = true ∧ failure.isReported = true

theorem expects_of_mem {image : Image} {failure : Failure} (hf : failure.fault ∈ image.faults)
    (ht : ∀ c ∈ failure.trace, c.isWhole = true) : image.Expects (.error failure) := by
  have hr : failure.fault.isTrap = true ∧ failure.fault.isReported = true := by
    simp only [Image.faults, List.mem_cons, List.not_mem_nil, or_false] at hf
    rcases hf with hf | hf | hf | hf <;> rw [hf] <;> exact ⟨rfl, rfl⟩
  refine .inr ⟨failure, rfl, hf, hr.1, ?_⟩
  exact Failure.isReported_of_trace hr.2 ht

end PZero.Machine

namespace PZero.Refinement

open IR Machine
open Lowering (lower)
open Semantics (Store Stop)
open Typing (ok_of_toOption)

variable {p : Typed.Program} {pool : List Bytes} {image : Image} {F : Function} {w : Store}
  {st st' : State} {session : Session}

theorem Carries.unlimited :
    Carries p pool image.unlimited w st ↔ Carries p pool image w st :=
  ⟨fun h ↦ ⟨h.size, h.vars, h.strings, h.output⟩, fun h ↦ ⟨h.size, h.vars, h.strings, h.output⟩⟩

theorem Carries.restart (h : Carries p pool image w st) (hm : st'.memory = st.memory)
    (ho : st'.output = #[]) : Carries p pool image ⟨w.globals, []⟩ st' where
  size := by
    rw [hm]
    exact h.size
  vars hb := by
    rw [hm]
    exact h.vars hb
  strings ht := by
    rw [hm]
    exact h.strings ht
  output := by rw [ho]

/-- Between calls the memory carries a store. -/
structure Ready (p : Typed.Program) (pool : List Bytes) (image : Image) (session : Session) :
    Prop where
  same : session.image = image
  depth : session.depth = 0
  memory : ∃ w, ∀ st : State, st.memory = session.memory → st.output = #[] →
    Carries p pool image w st

/-- A run ends as expected, and its memory carries a store. -/
def Fine (p : Typed.Program) (pool : List Bytes) (image : Image) (next : Next) : Prop :=
  ∀ ended, next.ended? image = some ended → image.Expects ended.status ∧
    ∃ w, ∀ st : State, st.memory = ended.session.memory → st.output = #[] →
      Carries p pool image w st

theorem fine_of_stopped {next : Next} (hw : next.Whole)
    (hs : next.StoppedIn image image.unlimited st)
    (hc : ∃ w, Carries p pool image.unlimited w st) : Fine p pool image next := by
  obtain ⟨failure, t, rfl, hl, hm, -⟩ := hs
  obtain ⟨w, hc⟩ := hc
  intro ended he
  cases he
  refine ⟨expects_of_mem ?_ hw, ⟨w.globals, []⟩, fun st' hm' ho ↦ ?_⟩
  · rcases hl with ⟨hf, -⟩ | ⟨hf, -⟩ <;> simp [hf, Image.faults]
  · exact (Carries.unlimited.1 hc).restart (hm'.trans hm) ho

theorem fine_of_reached {α : Type} {outcome : EStateM.Result Stop Store α} {next : Next}
    {steps : Int64} (hw : (next.recount steps).Whole)
    (h : Reached p pool image.unlimited outcome next) : Fine p pool image (next.recount steps) := by
  intro ended he
  match outcome, h with
  | .ok _ w, ⟨v, st, hn, hz, hc⟩ =>
    subst hn
    cases he
    refine ⟨.inl (congrArg Except.ok hz), ⟨w.globals, []⟩, fun st' hm ho ↦ ?_⟩
    exact (Carries.unlimited.1 hc).restart hm ho
  | .error (.trap cause) w, ⟨failure, st, hn, hf, hc⟩ =>
    subst hn
    cases he
    refine ⟨expects_of_mem ?_ hw, ⟨w.globals, []⟩, fun st' hm ho ↦ ?_⟩
    · rw [hf]
      cases cause <;> simp [faultOf, Image.faults, Image.unlimited]
    · exact (Carries.unlimited.1 hc).restart hm ho

theorem Ready.main {fuel : Nat} {ended : Ended} (hl : Linked p pool image.unlimited)
    (hw : image.Whole) (h : Ready p pool image session) (he : session.main fuel = some ended) :
    image.Expects ended.status ∧ Ready p pool image ended.session := by
  obtain ⟨rfl, hdepth, w, hc⟩ := h
  have hdepth' : ended.session.depth = 0 := (main_depth he).trans hdepth
  have himage := main_image he
  obtain ⟨F, hF, hps, -⟩ := hl.main
  have hF' : session.image.function? (ascii "main") = some F := hF
  by_cases hd : session.depth < session.image.maxDepth
  · have hwhole := advance_whole hw (entry_whole hw hF') fuel
    rw [main_eq_run hF' hps hd, run_eq] at he
    have hd' : 1 ≤ session.image.unlimited.maxDepth := by
      change 1 ≤ session.image.maxDepth
      omega
    have hone : (session.entry F).depth = 1 := congrArg (· + 1) hdepth
    have hc₀ := Carries.unlimited.2 (hc (session.entry F) rfl rfl)
    suffices hfine : Fine p pool session.image
        ((Next.running (session.entry F)).advance session.image fuel) by
      obtain ⟨hx, hmem⟩ := hfine ended he
      exact ⟨hx, himage, hdepth', hmem⟩
    -- The run without a bound does the same up to the instruction that is one too many.
    have htight := session.image.tighter_unlimited
    rcases @advance_tighter _ _ htight fuel (.running (session.entry F)) _
      (htight.inStep session.steps) with ⟨steps, hadv, -⟩ | ⟨k, -, s, hrun, hstop⟩
    · rw [show (Next.running (session.entry F)).recount session.steps =
        .running (session.entry F) from rfl] at hadv
      rw [hadv] at he hwhole ⊢
      have hrun : ∀ t, (Next.running (session.entry F)).advance session.image.unlimited fuel ≠
          .running t := by
        intro t ht
        rw [ht] at he
        cases he
      obtain ⟨outcome, hr⟩ := main_ends hl hd' hF rfl rfl hone hc₀ hrun
      exact fine_of_reached hwhole hr
    · exact fine_of_stopped hwhole hstop (main_carries hl hd' hF rfl rfl hone hc₀ hrun)
  · rw [main_eq_depthLimit hF' hps hd] at he
    cases he
    refine ⟨expects_of_mem ?_ ?_, rfl, hdepth, w, hc⟩
    · simp [Image.faults]
    · simp

theorem Ready.reaches {start : Session} (hl : Linked p pool image.unlimited) (hw : image.Whole)
    (h : Ready p pool image start) (hr : start.Reaches session) : Ready p pool image session := by
  induction hr with
  | refl => exact h
  | main _ he ih => exact (ih.main hl hw he).2

/-- A compiled program never goes wrong. It can be loaded, and whatever calls of `main` came before,
a call that ends returns zero or fails with a trap on a division, the bound on steps or the bound on
nested calls. -/
theorem compiled_main_never_goes_wrong {f : File} {p : Typed.Program} {id : Bytes} {M : IR.Module}
    (hc : Typing.checkFile f = .ok p) (hl : lower id p = .ok M) (limits : Limits) :
    ∃ start, Session.load M limits = .ok start ∧
      start.image.maxSteps = limits.maxSteps ∧ start.image.maxDepth = limits.depth ∧
      ∀ session, start.Reaches session → ∀ fuel ended, session.main fuel = some ended →
        start.image.Expects ended.status := by
  obtain ⟨pool, hlinked, hloads⟩ :=
    load_linked (Typing.checkFile_wellTyped hc) (Typing.checkFile_isName hc) hl
  obtain ⟨memory, hload, hcarries⟩ := hloads limits
  have hlink : Linked p pool (Image.ofModule M limits).unlimited :=
    hlinked ⟨0, limits.maxDepth⟩ (Int64.le_refl 0)
  have hwhole : (Image.ofModule M limits).Whole := Lowering.lower_whole hl
  have hready : Ready p pool (.ofModule M limits) ⟨.ofModule M limits, memory, 0, 0⟩ :=
    ⟨rfl, rfl, _, hcarries⟩
  refine ⟨_, hload, rfl, rfl, fun session hr fuel ended he ↦ ?_⟩
  exact ((hready.reaches hlink hwhole hr).main hlink hwhole he).1

def spin : File := ⟨ascii "spin.p0", ascii "fun main()\x7bwhile(true)\x7b\x7d\x7d"⟩

theorem spin_never_goes_wrong : ∃ p M start first second failure,
    Typing.checkFile spin = .ok p ∧ lower [] p = .ok M ∧ Session.load M ⟨9, 1⟩ = .ok start ∧
      start.main 20 = some first ∧ first.session.main 20 = some second ∧
      second.status = .error failure ∧
      failure.fault ∈ [.divisionByZero, .divisionOverflow, .stepLimit 9, .depthLimit 1] := by
  have hrun : (do
      let p ← (Typing.checkFile spin).toOption
      let M ← (lower [] p).toOption
      let start ← (Session.load M ⟨9, 1⟩).toOption
      let first ← start.main 20
      let second ← first.session.main 20
      if second.status.toOption.isNone then some () else none).isSome := by decide +kernel
  obtain ⟨_, hrun⟩ := Option.isSome_iff_exists.1 hrun
  simp only [Option.bind_eq_bind, Option.bind_eq_some_iff, Option.ite_none_right_eq_some] at hrun
  obtain ⟨p, hc, M, hm, start, hs, first, h₁, second, h₂, hfail, -⟩ := hrun
  have hc := ok_of_toOption hc
  have hm := ok_of_toOption hm
  obtain ⟨start', hload, hsteps, hdepth, hsafe⟩ := compiled_main_never_goes_wrong hc hm ⟨9, 1⟩
  obtain rfl : start' = start := Except.ok.inj (hload.symm.trans (ok_of_toOption hs))
  rcases hsafe first.session (.main .refl h₁) 20 second h₂ with hz | ⟨failure, hf, hmem, -⟩
  · rw [hz] at hfail
    cases hfail
  · rw [Image.faults, hsteps, hdepth] at hmem
    exact ⟨p, M, start', first, second, failure, hc, hm, hload, h₁, h₂, hf, hmem⟩

end PZero.Refinement
