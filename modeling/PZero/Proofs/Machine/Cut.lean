import PZero.Proofs.Machine.Calls
import PZero.Proofs.Machine.Limit
import PZero.Proofs.Machine.Loading
import PZero.Proofs.Machine.Message

namespace PZero.Machine

open IR

def Next.output (next : Next) : Bytes := next.state.output.toList

variable {image tight loose : Image}

theorem call_output (s : State) (i : Instr) (callee : Bytes) (args : List Value) :
    s.output.toList <+: (s.call image i callee args).output := by
  unfold State.call
  split
  · split
    · exact List.prefix_rfl
    · split <;> exact List.prefix_rfl
  · split
    · split
      · simp [Next.output, Next.state]
      · exact List.prefix_rfl
    · exact List.prefix_rfl

theorem leave_output (s : State) (v : Value) : s.output.toList <+: (s.leave v).output := by
  unfold State.leave
  split <;> exact List.prefix_rfl

theorem execute_output (s : State) (i : Instr) :
    s.output.toList <+: (s.execute image i).output := by
  unfold State.execute
  split
  · exact List.prefix_rfl
  · split <;> exact List.prefix_rfl
  · split
    · split <;> exact List.prefix_rfl
    · exact List.prefix_rfl
  · split
    · exact leave_output s _
    · exact List.prefix_rfl
  · exact leave_output s _
  · split
    · exact call_output s _ _ _
    · exact List.prefix_rfl
  · split
    · exact call_output s _ _ _
    · exact List.prefix_rfl
  · split <;> exact List.prefix_rfl

theorem step_output (s : State) : s.output.toList <+: (step image s).output := by
  rcases step_cases image s with ⟨-, hs⟩ | ⟨-, -, hs⟩ | ⟨i, ahead, -, -, hs⟩ <;> rw [hs]
  · exact List.prefix_rfl
  · exact List.prefix_rfl
  · exact execute_output { s.counted image with frame := { s.frame with ahead } } i

theorem advance_output (n : Nat) (next : Next) :
    next.output <+: (next.advance image n).output := by
  induction n generalizing next with
  | zero => simp only [Next.advance_zero, List.prefix_rfl]
  | succ n ih =>
    cases next with
    | running s => exact (step_output s).trans (ih (step image s))
    | returned v s => simp only [Next.advance_returned, List.prefix_rfl]
    | failed failure s => simp only [Next.advance_failed, List.prefix_rfl]

theorem output_of_running {n k : Nat} {next : Next} {s : State}
    (h : next.advance image k = .running s) (hk : k < n) :
    s.output.toList <+: (next.advance image n).output := by
  obtain ⟨j, rfl⟩ := Nat.exists_eq_add_of_lt hk
  rw [Nat.add_assoc, Next.advance_add, h]
  exact advance_output (j + 1) (.running s)

/-- What a caller sees of a call: its status or its failure, and what was printed. -/
def Ended.seen (ended : Ended) : Except (Bool × Bytes) Int × Bytes :=
  (ended.status.mapError Failure.seen, ended.output)

def Ended.result (ended : Ended) : Except Failure Int × Bytes := (ended.status, ended.output)

/-- A call that is cut short at a limit, beside the whole call. -/
structure CutShort (tight loose : Image) (cut full : Ended) : Prop where
  seen : cut.seen ≠ full.seen
  output : cut.output <+: full.output
  failure : ∃ failure, cut.status = .error failure ∧ tight.StopsWith loose failure.fault ∧
    (tight.Whole → failure.isReported = true)

theorem isReported_of_limit {failure : Failure} (hl : tight.StopsWith loose failure.fault)
    (ht : ∀ c ∈ failure.trace, c.isWhole = true) : failure.isReported = true := by
  refine Failure.isReported_of_trace ?_ ht
  rcases hl with ⟨hf, -⟩ | ⟨hf, -⟩ <;> rw [hf] <;> rfl

/-- A session on another image of the same module, which has counted other steps. -/
def Session.on (image : Image) (steps : Int64) (session : Session) : Session :=
  { session with image, steps }

variable {session : Session} {F : Function} {ended : Ended} {fuel : Nat}

theorem entry_chained (hF : session.image.function? (ascii "main") = some F) :
    (session.entry F).Chained := by
  have hn : F.name = ascii "main" := by simpa using List.find?_some hF
  exact hn

theorem blames_of_run (hF : session.image.function? (ascii "main") = some F)
    (he : run session.image fuel (session.entry F) = some ended) {failure : Failure}
    (hs : ended.status = .error failure) :
    ∃ s : State, s.Chained ∧ Blames session.image s failure := by
  have hsound := @advance_sound session.image (.running (session.entry F)) (entry_chained hF) fuel
  rw [run_eq] at he
  cases hn : (Next.running (session.entry F)).advance session.image fuel with
  | running s =>
    rw [hn] at he
    cases he
  | returned v s =>
    rw [hn] at he
    cases he
    cases hs
  | failed failure' s =>
    rw [hn] at he hsound
    cases he
    cases hs
    exact ⟨s, hsound⟩

theorem seen_ne {cut full : Ended} {failure : Failure} (hc : cut.status = .error failure)
    (h : ∀ failure', full.status = .error failure' → failure.seen ≠ failure'.seen) :
    cut.seen ≠ full.seen := by
  intro hs
  have hstatus : cut.status.mapError Failure.seen = full.status.mapError Failure.seen :=
    (Prod.mk.inj hs).1
  rw [hc] at hstatus
  cases hf : full.status with
  | ok code =>
    rw [hf] at hstatus
    cases hstatus
  | error failure' =>
    rw [hf] at hstatus
    exact h failure' hf (Except.error.inj hstatus)

theorem output_of_ended {next : Next} (h : next.ended? image = some ended) :
    ended.output = next.output := by
  cases next with
  | running s => cases h
  | returned v s =>
    cases h
    rfl
  | failed failure s =>
    cases h
    rfl

theorem ended?_on {next : Next} (h : next.ended? image = some ended) (image' : Image)
    (steps : Int64) : ∃ ended', (next.recount steps).ended? image' = some ended' ∧
      ended'.result = ended.result ∧ ended'.session = ended.session.on image' steps := by
  cases next with
  | running s => cases h
  | returned v s | failed failure s =>
    cases h
    exact ⟨_, rfl, rfl, rfl⟩

/-- A call that ends as another one does, on another image and with other steps counted. -/
def SameEnd (tight loose : Image) (ended ended' : Ended) : Prop :=
  ended'.result = ended.result ∧ ∃ steps, ended'.session = ended.session.on tight steps ∧
    tight.InStep loose steps ended.session.steps

theorem run_tighter {steps : Int64} (h : tight.Tighter session.image)
    (hc : tight.InStep session.image steps session.steps)
    (hF : session.image.function? (ascii "main") = some F)
    (he : run session.image fuel (session.entry F) = some ended) :
    ∃ ended', run tight fuel ((session.on tight steps).entry F) = some ended' ∧
      (SameEnd tight session.image ended ended' ∨ CutShort tight session.image ended' ended) := by
  have hblames := @blames_of_run session F ended fuel hF he
  have hentry : Next.running ((session.on tight steps).entry F)
      = (Next.running (session.entry F)).recount steps := rfl
  rw [run_eq] at he
  rw [run_eq, hentry]
  rcases @advance_tighter tight session.image h fuel (.running (session.entry F)) steps hc with
    ⟨steps', heq, hc'⟩ | ⟨k, hk, s, hs, failure, t, hcut, hl, -, ho⟩
  · obtain ⟨ended', he', hresult, hsession⟩ := ended?_on he tight steps'
    rw [heq]
    have hsteps : ended.session.steps = _ := congrArg Session.steps (session_of_ended he)
    exact ⟨ended', he', .inl ⟨hresult, steps', hsession, hsteps ▸ hc'⟩⟩
  · have hF' : (session.on tight steps).image.function? (ascii "main") = some F :=
      (h.toAlike.function? _).trans hF
    have hsound := @advance_sound tight (.running ((session.on tight steps).entry F))
      (entry_chained hF') fuel
    rw [hentry, hcut] at hsound
    obtain ⟨hchained, hb⟩ := hsound
    rw [hcut]
    refine ⟨_, rfl, .inr ⟨?_, ?_, failure, rfl, hl, fun hw ↦ ?_⟩⟩
    · refine seen_ne rfl fun failure' hs ↦ ?_
      obtain ⟨s, hs, hb'⟩ := hblames hs
      rcases hl with ⟨hf, hne⟩ | hl
      · have hne' := fun he ↦ hne (Int64.toInt_inj.1 he)
        exact seen_ne_of_limit hchained hs hb hb' (.inl ⟨hf, hne'⟩)
      · exact seen_ne_of_limit hchained hs hb hb' (.inr hl)
    · rw [output_of_ended he]
      change t.output.toList <+: _
      rw [ho]
      exact output_of_running hs hk
    · have hwhole := advance_whole hw (@entry_whole (session.on tight steps) F hw hF') fuel
      change (((Next.running (session.entry F)).recount steps).advance tight fuel).Whole at hwhole
      rw [hcut] at hwhole
      exact isReported_of_limit hl hwhole

theorem main_tighter {steps : Int64} (h : tight.Tighter session.image)
    (hc : tight.InStep session.image steps session.steps) (he : session.main fuel = some ended) :
    ∃ ended', (session.on tight steps).main fuel = some ended' ∧
      (SameEnd tight session.image ended ended' ∨ CutShort tight session.image ended' ended) := by
  have hdepth := h.depth
  have hname : (session.on tight steps).image.function? (ascii "main")
      = session.image.function? (ascii "main") := h.toAlike.function? _
  cases hF : session.image.function? (ascii "main") with
  | none =>
    rw [hF] at hname
    rw [main_eq_noMain hF] at he
    cases he
    exact ⟨_, main_eq_noMain hname fuel, .inl ⟨rfl, steps, rfl, hc⟩⟩
  | some F =>
    rw [hF] at hname
    by_cases hps : F.params = []
    · by_cases ht : (session.on tight steps).depth < tight.maxDepth
      · rw [main_eq_run hF hps (Int.lt_of_lt_of_le ht hdepth)] at he
        rw [main_eq_run hname hps ht]
        exact run_tighter h hc hF he
      · rw [main_eq_depthLimit hname hps ht]
        by_cases hd : tight.maxDepth = session.image.maxDepth
        · rw [main_eq_depthLimit hF hps (hd ▸ ht)] at he
          cases he
          have hsame : (session.on tight steps).image.maxDepth = session.image.maxDepth := hd
          exact ⟨_, rfl, .inl ⟨by simp only [Ended.result, hsame], steps, rfl, hc⟩⟩
        · refine ⟨_, rfl, .inr
            ⟨seen_ne rfl ?_, List.nil_prefix, _, rfl, .inr ⟨rfl, hd⟩, fun _ ↦ rfl⟩⟩
          intro failure' hs
          by_cases hl : session.depth < session.image.maxDepth
          · rw [main_eq_run hF hps hl] at he
            obtain ⟨s, hchained, hb⟩ := blames_of_run hF he hs
            exact seen_ne_of_refused hchained hb _
          · rw [main_eq_depthLimit hF hps hl] at he
            cases he
            cases hs
            intro hseen
            have hmessage : (Fault.depthLimit tight.maxDepth).message
                = (Fault.depthLimit session.image.maxDepth).message := (Prod.mk.inj hseen).2
            exact hd (Fault.depthLimit.inj (eq_depthLimit rfl hmessage))
    · rw [main_eq_takesParameters hF hps] at he
      cases he
      exact ⟨_, main_eq_takesParameters hname hps fuel, .inl ⟨rfl, steps, rfl, hc⟩⟩

def Session.calls (fuel : Nat) : (n : Nat) → Session → Option (List Ended)
  | 0, _ => some []
  | n + 1, session => do
    let ended ← session.main fuel
    let rest ← ended.session.calls fuel n
    return ended :: rest

theorem calls_succ {n : Nat} {ends : List Ended} :
    session.calls fuel (n + 1) = some ends ↔ ∃ ended rest, session.main fuel = some ended ∧
      ended.session.calls fuel n = some rest ∧ ends = ended :: rest := by
  simp only [Session.calls, Option.bind_eq_bind, Option.bind_eq_some_iff, Option.pure_def,
    Option.some.injEq]
  constructor
  · rintro ⟨ended, he, rest, hr, rfl⟩
    exact ⟨ended, rest, he, hr, rfl⟩
  · rintro ⟨ended, rest, he, hr, rfl⟩
    exact ⟨ended, he, rest, hr, rfl⟩

theorem calls_tighter {steps : Int64} (h : tight.Tighter session.image)
    (hc : tight.InStep session.image steps session.steps) {n : Nat} {ends : List Ended}
    (hcalls : session.calls fuel n = some ends) :
    (∃ ends', (session.on tight steps).calls fuel n = some ends' ∧
      ends'.map Ended.result = ends.map Ended.result) ∨
    ∃ before full after before' cut, ends = before ++ full :: after ∧
      (session.on tight steps).calls fuel (before.length + 1) = some (before' ++ [cut]) ∧
      before'.map Ended.result = before.map Ended.result ∧
      CutShort tight session.image cut full := by
  induction n generalizing session steps ends with
  | zero =>
    cases hcalls
    exact .inl ⟨[], rfl, rfl⟩
  | succ n ih =>
    obtain ⟨ended, rest, he, hr, rfl⟩ := calls_succ.1 hcalls
    have himage := main_image he
    obtain ⟨ended', he', ⟨hresult, steps', hsession, hc'⟩ | hcut⟩ := main_tighter h hc he
    · rcases ih (himage ▸ h) (himage ▸ hc') hr with
        ⟨ends', hends, hsame⟩ | ⟨before, full, after, before', cut, rfl, hcalls, hsame, hcut⟩
      · refine .inl ⟨ended' :: ends', ?_, by rw [List.map_cons, List.map_cons, hresult, hsame]⟩
        exact calls_succ.2 ⟨ended', ends', he', hsession ▸ hends, rfl⟩
      · refine .inr ⟨ended :: before, full, after, ended' :: before', cut, rfl, ?_,
          by rw [List.map_cons, List.map_cons, hresult, hsame], himage ▸ hcut⟩
        exact calls_succ.2 ⟨ended', before' ++ [cut], he', hsession ▸ hcalls, rfl⟩
    · refine .inr ⟨[], ended, rest, [], ended', rfl, ?_, rfl, hcut⟩
      exact calls_succ.2 ⟨ended', [], he', rfl, rfl⟩

mutual

theorem flatten_alike (h : tight.Alike loose) :
    ∀ c : Constant, flatten tight c = flatten loose c
  | .array elem values => by
    rw [flatten, flatten, flattenAll_alike h values]
  | .int .. | .float .. | .global .. | .gep .. | .zext .. => by
    simp only [flatten, constant_alike h]

theorem flattenAll_alike (h : tight.Alike loose) :
    ∀ cs : List Constant, flattenAll tight cs = flattenAll loose cs
  | [] => by rw [flattenAll, flattenAll]
  | c :: cs => by rw [flattenAll, flattenAll, flatten_alike h c, flattenAll_alike h cs]

end

theorem initialise_alike (h : tight.Alike loose) : initialise tight = initialise loose := by
  funext memory g
  simp only [initialise, flatten_alike h, h.globals]

theorem load_eq (m : Module) (limits : Limits) :
    Session.load m limits = (m.globals.mapM globalBlock >>= fun fresh ↦
      m.globals.foldlM (initialise (.ofModule m limits)) fresh.toArray).map fun memory ↦
        ⟨.ofModule m limits, memory, 0, 0⟩ := by
  have hmap : ∀ x : Except Failure Memory,
      Except.bind x (fun memory ↦ .ok (⟨.ofModule m limits, memory, 0, 0⟩ : Session))
        = x.map fun memory ↦ ⟨.ofModule m limits, memory, 0, 0⟩ := by
    intro x
    cases x <;> rfl
  rw [← hmap]
  unfold Session.load
  cases m.globals.mapM globalBlock <;> rfl

theorem load_limits {m : Module} {limits limits' : Limits}
    (h : Session.load m limits = .ok session) :
    session.image = .ofModule m limits ∧ session.steps = 0 ∧
      Session.load m limits' = .ok (session.on (.ofModule m limits') 0) := by
  have halike : (Image.ofModule m limits').Alike (.ofModule m limits) := ⟨rfl, rfl⟩
  rw [load_eq] at h ⊢
  rw [initialise_alike halike]
  cases hm : (m.globals.mapM globalBlock >>= fun fresh ↦
      m.globals.foldlM (initialise (.ofModule m limits)) fresh.toArray) with
  | error failure =>
    rw [hm] at h
    cases h
  | ok memory =>
    rw [hm] at h
    cases h
    exact ⟨rfl, rfl, rfl⟩

/-- Limits that leave no more room than other ones. -/
def Limits.Within (tight loose : Limits) : Prop :=
  (loose.maxSteps ≤ 0 ∨ 0 < tight.maxSteps ∧ tight.maxSteps ≤ loose.maxSteps) ∧
    tight.depth ≤ loose.depth

theorem Limits.Within.tighter {tight loose : Limits} (h : tight.Within loose) (m : Module) :
    (Image.ofModule m tight).Tighter (.ofModule m loose) :=
  ⟨⟨rfl, rfl⟩, h.1, h.2⟩

/-- Limits only cut calls short. If some number of calls of `main` end, then with tighter limits
they end with the same results, up to a first one whose outcome differs; that one fails at the bound
on steps or on nested calls, and has printed a part of what it prints without them. -/
theorem limits_cut_calls_short {m : Module} {tight loose : Limits} (hw : tight.Within loose)
    {session : Session} (hload : Session.load m loose = .ok session) {fuel n : Nat}
    {ends : List Ended} (hcalls : session.calls fuel n = some ends) :
    ∃ start, Session.load m tight = .ok start ∧
      ((∃ ends', start.calls fuel n = some ends' ∧
          ends'.map Ended.result = ends.map Ended.result) ∨
        ∃ before full after before' cut failure, ends = before ++ full :: after ∧
          start.calls fuel (before.length + 1) = some (before' ++ [cut]) ∧
          before'.map Ended.result = before.map Ended.result ∧
          cut.seen ≠ full.seen ∧ cut.output <+: full.output ∧ cut.status = .error failure ∧
          (failure.fault = .stepLimit tight.maxSteps.toInt ∨
            failure.fault = .depthLimit tight.depth) ∧
          ((∀ F ∈ m.functions, Spelled F.body) → failure.isReported = true)) := by
  obtain ⟨himage, hsteps, hstart⟩ := load_limits hload
  refine ⟨_, hstart, ?_⟩
  have htighter : (Image.ofModule m tight).Tighter session.image := himage ▸ hw.tighter m
  have hcount : (Image.ofModule m tight).InStep session.image 0 session.steps :=
    hsteps ▸ htighter.inStep 0
  rcases calls_tighter htighter hcount hcalls with
    hsame | ⟨before, full, after, before', cut, hends, hcut, hresults, hseen, houtput, failure,
      hstatus, hlimit, hreported⟩
  · exact .inl hsame
  · refine .inr ⟨before, full, after, before', cut, failure, hends, hcut, hresults, hseen, houtput,
      hstatus, ?_, hreported⟩
    rcases hlimit with ⟨hf, -⟩ | ⟨hf, -⟩
    · exact .inl hf
    · exact .inr hf

/-- A module whose `main` prints two lines. -/
def lines : Module where
  id := ascii "lines"
  externals := Library.externals
  globals := []
  functions := [⟨ascii "main", [], .int 32,
    [.callVoid Library.printLn [], .callVoid Library.printLn [], .ret (.const (.int32 0))]⟩]

theorem lines_are_cut_short : ∃ session ends start before full after before' cut failure,
    Session.load lines ⟨0, 0⟩ = .ok session ∧ session.calls 4 2 = some ends ∧
      Session.load lines ⟨4, 0⟩ = .ok start ∧ ends = before ++ full :: after ∧
      start.calls 4 (before.length + 1) = some (before' ++ [cut]) ∧ cut.seen ≠ full.seen ∧
      cut.output <+: full.output ∧ cut.status = .error failure ∧
      failure.isReported = true := by
  have hw : Limits.Within ⟨4, 0⟩ ⟨0, 0⟩ := ⟨.inl (Int64.le_refl 0), Int.le_refl _⟩
  let session : Session := ⟨.ofModule lines ⟨0, 0⟩, #[], 0, 0⟩
  have hload : Session.load lines ⟨0, 0⟩ = .ok session := rfl
  have hload' : Session.load lines ⟨4, 0⟩ = .ok (session.on (.ofModule lines ⟨4, 0⟩) 0) := rfl
  have hstatus : (session.calls 4 2).map (List.map fun e ↦ e.status.toOption)
      = some [some 0, some 0] := by decide +kernel
  have hstatus' : ((session.on (.ofModule lines ⟨4, 0⟩) 0).calls 4 2).map
      (List.map fun e ↦ e.status.toOption) = some [some 0, none] := by decide +kernel
  obtain ⟨ends, hcalls, hends⟩ := Option.map_eq_some_iff.1 hstatus
  obtain ⟨start, hstart, ⟨ends', hcalls', hsame⟩ | ⟨before, full, after, before', cut, failure,
    hsplit, hcut, -, hseen, houtput, hfail, -, hreported⟩⟩ := limits_cut_calls_short hw hload hcalls
  · obtain rfl := Except.ok.inj (hload'.symm.trans hstart)
    have hstatuses := congrArg (List.map fun r ↦ r.1.toOption) hsame
    rw [List.map_map, List.map_map] at hstatuses
    rw [hcalls', Option.map_some] at hstatus'
    have hclash := ((Option.some.inj hstatus').symm.trans hstatuses).trans hends
    cases hclash
  · refine ⟨session, ends, start, before, full, after, before', cut, failure, hload, hcalls, hstart,
      hsplit, hcut, hseen, houtput, hfail, hreported ?_⟩
    simp [lines, Spelled, Instr.isWhole, Operand.isWhole, Operand.isBareWhole, Operand.type,
      Constant.isBareWhole, Constant.type, Constant.int32, Ty.isWhole]

end PZero.Machine
