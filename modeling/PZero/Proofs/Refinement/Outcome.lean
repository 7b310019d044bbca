import PZero.Proofs.Lowering.Plain
import PZero.Proofs.Machine.Calls
import PZero.Proofs.Refinement.Link

namespace PZero.Machine

def Session.held (session : Session) (name : Bytes) : Option Value :=
  (session.image.globals.lookup name).bind fun b ↦
    (session.memory.load (.ptr (some b) 0)).toOption

end PZero.Machine

namespace PZero.Refinement

open IR Machine
open Lowering (lower lowerMainBody)
open Semantics (Store Stop)
open Typing (valueDecl lookup_scope ok_of_toOption)

variable {p : Typed.Program} {pool : List Bytes} {image : Image} {F : Function} {w : Store}
  {st st' : State}

theorem faultOf_isTrap (image : Image) (cause : Semantics.Trap) :
    (faultOf image cause).isTrap = true := by
  cases cause <;> rfl

theorem isReported_of_faultOf {failure : Failure} {cause : Semantics.Trap}
    (hf : failure.fault = faultOf image cause) (ht : ∀ c ∈ failure.trace, c.isWhole = true) :
    failure.isReported = true := by
  refine Failure.isReported_of_trace ?_ ht
  rw [hf]
  cases cause <;> rfl

/-- A run has come to the end that an outcome says. -/
def Reached {α : Type} (p : Typed.Program) (pool : List Bytes) (image : Image)
    (outcome : EStateM.Result Stop Store α) (next : Next) : Prop :=
  match outcome with
  | .ok _ w => ∃ v st, next = .returned v st ∧ statusOf v = 0 ∧ Carries p pool image w st
  | .error (.trap cause) w => ∃ failure st, next = .failed failure st ∧
    failure.fault = faultOf image cause ∧ Carries p pool image w st
  | .error _ _ => False

theorem Reached.not_running {α : Type} {outcome : EStateM.Result Stop Store α} {next : Next}
    (h : Reached p pool image outcome next) (t : State) : next ≠ .running t := by
  match outcome, h with
  | .ok _ _, ⟨_, _, hn, _⟩ => simp [hn]
  | .error (.trap _) _, ⟨_, _, hn, _⟩ => simp [hn]

theorem main_eq {bound : Int} (hd : 1 ≤ bound) (clock : Nat) :
    Semantics.main p bound clock w =
      match Semantics.execStmt (Semantics.call p bound clock 2) clock [] p.main w with
      | .ok _ w' => .ok () w'
      | .error e w' => .error e w' := by
  have hlt : ¬bound < 1 := by omega
  simp only [Semantics.main, hlt, if_false]
  change EStateM.bind _ _ w = _
  unfold EStateM.bind
  cases Semantics.execStmt (Semantics.call p bound clock 2) clock [] p.main w <;> rfl

theorem main_reaches (hl : Linked p pool image) (hd : 1 ≤ image.maxDepth)
    (hF : image.function? (ascii "main") = some F) (hf : st.frame = .enter F [])
    (hcallers : st.callers = []) (hdepth : st.depth = 1) (hc : Carries p pool image w st)
    (clock : Nat) :
    (∃ n next, Leads image (Carries p pool image) n (.running st) next ∧
        Reached p pool image (Semantics.main p image.maxDepth clock w) next) ∨
      ∃ w', Semantics.main p image.maxDepth clock w = .error .timeout w' ∧
        ∀ k < clock, ∃ st', (Next.running st).advance image k = .running st' ∧
          ∃ w, Carries p pool image w st' := by
  obtain ⟨G, hG, -, hlow⟩ := hl.main
  rw [hF] at hG
  cases hG
  have hs := @main_simulates p pool image F w clock st hl hlow hf hc hdepth hcallers
  rw [main_eq hd]
  match Semantics.execStmt (Semantics.call p image.maxDepth clock 2) clock [] p.main w, hs with
  | .ok _ w', ⟨k, st₁, hk, hc₁, st₂, hs₂, hm₂, ho₂⟩ =>
    exact .inl ⟨k + 1, _, hk.trans (.one ⟨w', hc₁⟩ hs₂), encode (.int 0), st₂, rfl, rfl,
      hc₁.congr hm₂ ho₂⟩
  | .error (.trap cause) w', ⟨k, failure, st₁, hk, hf₁, hc₁⟩ =>
    exact .inl ⟨k, _, hk, failure, st₁, rfl, hf₁, hc₁⟩
  | .error .timeout w', hrun => exact .inr ⟨w', rfl, hrun⟩

theorem main_ends (hl : Linked p pool image) (hd : 1 ≤ image.maxDepth)
    (hF : image.function? (ascii "main") = some F) (hf : st.frame = .enter F [])
    (hcallers : st.callers = []) (hdepth : st.depth = 1) (hc : Carries p pool image w st) {n : Nat}
    (he : ∀ t, (Next.running st).advance image n ≠ .running t) :
    ∃ outcome : EStateM.Result Stop Store Unit,
      Reached p pool image outcome ((Next.running st).advance image n) := by
  rcases main_reaches hl hd hF hf hcallers hdepth hc (n + 1) with
    ⟨k, next, hk, hr⟩ | ⟨w', -, hrun⟩
  · refine ⟨Semantics.main p image.maxDepth (n + 1) w, ?_⟩
    rcases Nat.le_total k n with hle | hle
    · rw [Next.advance_eq_of_le (fun t ht ↦ hr.not_running t (hk.run ▸ ht)) hle, hk.run]
      exact hr
    · rw [← Next.advance_eq_of_le he hle, hk.run]
      exact hr
  · obtain ⟨t, ht, -⟩ := hrun n (Nat.lt_succ_self n)
    exact absurd ht (he t)

theorem main_carries (hl : Linked p pool image) (hd : 1 ≤ image.maxDepth)
    (hF : image.function? (ascii "main") = some F) (hf : st.frame = .enter F [])
    (hcallers : st.callers = []) (hdepth : st.depth = 1) (hc : Carries p pool image w st) {k : Nat}
    (hk : (Next.running st).advance image k = .running st') :
    ∃ w', Carries p pool image w' st' := by
  rcases main_reaches hl hd hF hf hcallers hdepth hc (k + 1) with ⟨n, next, hn, hr⟩ | ⟨w', -, hrun⟩
  · refine hn.along k (Nat.lt_of_not_le fun hle ↦ ?_) st' hk
    have he := fun t ht ↦ hr.not_running t (hn.run ▸ ht)
    rw [Next.advance_eq_of_le he hle] at hk
    exact he st' hk
  · obtain ⟨t, ht, h⟩ := hrun k (Nat.lt_succ_self k)
    exact Next.running.inj (ht.symm.trans hk) ▸ h

/-- Every top-level variable of a program holds its value in a session. -/
def Shows (p : Typed.Program) (w : Store) (session : Session) : Prop :=
  ∀ isConst name value, valueDecl isConst name value ∈ p.decls →
    ∃ v, w.globals.lookup name = some v ∧ session.held name = some (encode v)

theorem Carries.shows (h : Carries p pool image w st) (hp : p.WellTyped) :
    Shows p w (st.session image) := by
  intro isConst name value hd
  obtain ⟨v, b, hv, -, hb, hcell⟩ := h.vars (lookup_scope hp hd)
  refine ⟨v, hv, ?_⟩
  simp only [Session.held, State.session, hb, Option.bind_some, hcell.load]
  rfl

/-- A call of `main` follows an outcome of the program within a clock. -/
def Follows (p : Typed.Program) (session : Session) (clock : Nat) :
    EStateM.Result Stop Store Unit → Prop
  | .ok _ w => ∃ n after, (∀ fuel, n ≤ fuel → session.main fuel = some ⟨.ok 0, w.output, after⟩) ∧
    Shows p w after
  | .error (.trap cause) w => ∃ n failure after,
    (∀ fuel, n ≤ fuel → session.main fuel = some ⟨.error failure, w.output, after⟩) ∧
      failure.fault = faultOf session.image cause ∧ failure.fault.isTrap = true ∧
      failure.isReported = true ∧ Shows p w after
  | .error .timeout _ => ∀ fuel < clock, session.main fuel = none
  | .error .stuck _ => False

theorem main_follows {session : Session} (hl : Linked p pool session.image)
    (hw : session.image.Whole) (hdepth : session.depth = 0)
    (hc : ∀ st : State, st.memory = session.memory → st.output = #[] →
      Carries p pool session.image w st) (clock : Nat) :
    Follows p session clock (Semantics.main p session.image.maxDepth clock w) := by
  obtain ⟨F, hF, hps, -⟩ := hl.main
  have hc₀ := hc (session.entry F) rfl rfl
  by_cases hd : session.depth < session.image.maxDepth
  · have hrun := fun fuel ↦ (main_eq_run hF hps hd fuel).trans (run_eq _ _ _)
    have hone : (session.entry F).depth = 1 := congrArg (· + 1) hdepth
    rcases main_reaches hl (by omega) hF rfl rfl hone hc₀ clock with
      ⟨n, next, hn, hr⟩ | ⟨w', ht, hk⟩
    · have hsame : ∀ fuel, n ≤ fuel → session.main fuel = next.ended? session.image := by
        intro fuel hle
        rw [hrun, Next.advance_eq_of_le (fun t ht ↦ hr.not_running t (hn.run ▸ ht)) hle, hn.run]
      match Semantics.main p session.image.maxDepth clock w, hr with
      | .ok _ w', ⟨v, st, hv, hz, hcw⟩ =>
        refine ⟨n, st.session session.image, fun fuel hle ↦ ?_, hcw.shows hl.typed⟩
        rw [hsame fuel hle, hv, Next.ended?, hz, hcw.output]
      | .error (.trap cause) w', ⟨failure, st, hv, hf, hcw⟩ =>
        have htrace := advance_whole hw (entry_whole hw hF) n
        rw [hn.run, hv] at htrace
        refine ⟨n, failure, st.session session.image, fun fuel hle ↦ ?_, hf, ?_,
          isReported_of_faultOf hf htrace, hcw.shows hl.typed⟩
        · rw [hsame fuel hle, hv, Next.ended?, hcw.output]
        · rw [hf]
          exact faultOf_isTrap _ _
    · rw [ht]
      intro fuel hlt
      obtain ⟨st', hst, -⟩ := hk fuel hlt
      rw [hrun, hst]
      rfl
  · have hlt : session.image.maxDepth < 1 := by omega
    have hm : Semantics.main p session.image.maxDepth clock w = .error (.trap .depth) w := by
      simp only [Semantics.main, hlt, if_true]
      rfl
    rw [hm]
    refine ⟨0, ⟨[], .depthLimit session.image.maxDepth⟩, session, fun fuel _ ↦ ?_, rfl, rfl, rfl,
      hc₀.shows hl.typed⟩
    rw [main_eq_depthLimit hF hps hd, ← hc₀.output]
    rfl

/-- A compiled program does what the program means. For every bound on nested calls, if the program
ends, then `main` prints the same, returns zero and leaves the global variables with the same
values; if it traps, then `main` fails with the fault of the trap after printing the same; and as
long as the program runs, so does `main`. -/
theorem compiled_main_follows_program {f : File} {p : Typed.Program} {id : Bytes} {M : IR.Module}
    {limits : Limits} (hc : Typing.checkFile f = .ok p) (hl : lower id p = .ok M)
    (hu : limits.maxSteps ≤ 0) :
    ∃ session, Session.load M limits = .ok session ∧
      session.image.maxDepth = limits.depth ∧
      ∀ clock, Follows p session clock (Semantics.run p limits.depth clock) := by
  obtain ⟨pool, hlinked, hloads⟩ :=
    load_linked (Typing.checkFile_wellTyped hc) (Typing.checkFile_isName hc) hl
  obtain ⟨memory, hload, hcarries⟩ := hloads limits
  refine ⟨_, hload, rfl, fun clock ↦ ?_⟩
  exact main_follows (hlinked limits hu) (Lowering.lower_whole hl) rfl hcarries clock

/-- A loop of calls that changes a global variable and then divides by zero. -/
def quotients : File :=
  ⟨ascii "quotients.p0", ascii
    "let n=7;fun f(k:Int):Int\x7bn=n-k;return n/k;\x7d
fun main()\x7bwhile(n>0)\x7bprint(f(2));\x7dprint(f(n+1));\x7d"⟩

theorem quotients_follow : ∃ p M session n failure after,
    Typing.checkFile quotients = .ok p ∧ lower [] p = .ok M ∧
      Session.load M ⟨0, 0⟩ = .ok session ∧ failure.fault = .divisionByZero ∧
      ∀ fuel, n ≤ fuel → session.main fuel = some ⟨.error failure, ascii "2100", after⟩ := by
  let last : EStateM.Result Stop Store Unit :=
    .error (.trap .divisionByZero) ⟨[(ascii "n", .int (-1))], ascii "2100"⟩
  have hrun : (do
      let p ← (Typing.checkFile quotients).toOption
      let M ← (lower [] p).toOption
      if Semantics.run p 10000 9 = last then some M else none).isSome := by decide +kernel
  obtain ⟨_, hrun⟩ := Option.isSome_iff_exists.1 hrun
  simp only [Option.bind_eq_bind, Option.bind_eq_some_iff, Option.ite_none_right_eq_some] at hrun
  obtain ⟨p, hc, M, hl, hw, -⟩ := hrun
  have hc := ok_of_toOption hc
  have hl := ok_of_toOption hl
  obtain ⟨session, hload, -, hfollow⟩ :=
    @compiled_main_follows_program quotients p [] M ⟨0, 0⟩ hc hl (Int64.le_refl 0)
  have hf := hfollow 9
  rw [show Limits.depth ⟨0, 0⟩ = 10000 from rfl, hw] at hf
  obtain ⟨n, failure, after, hmain, hfault, -⟩ := hf
  exact ⟨p, M, session, n, failure, after, hc, hl, hload, hfault, hmain⟩

end PZero.Refinement
