import Mathlib.Logic.Relation
import PZero.Proofs.Machine.Calls
import PZero.Proofs.Machine.Kept
import PZero.Proofs.Machine.Loading

namespace PZero.Machine

open IR

/-- A moment of a session, between calls of `main` or during one. -/
inductive Moment
  | idle (session : Session)
  | busy (image : Image) (state : State)

namespace Moment

def memory : Moment → Memory
  | .idle session => session.memory
  | .busy _ s => s.memory

def depth : Moment → Int
  | .idle session => session.depth
  | .busy _ s => s.depth

def IsCanonical : Moment → Prop
  | .idle session => session.memory.IsCanonical
  | .busy _ s => s.IsCanonical

def active : Moment → Nat
  | .idle _ => 0
  | .busy _ s => s.callers.length + 1

/-- A call of `main` starts, executes an instruction, or ends. -/
inductive Step : Moment → Moment → Prop
  | enter {session : Session} {F : Function}
    (hF : session.image.function? (ascii "main") = some F) (hps : F.params = [])
    (hd : session.depth < session.image.maxDepth) :
    Step (.idle session) (.busy session.image (session.entry F))
  | run {image : Image} {s t : State} (h : step image s = .running t) :
    Step (.busy image s) (.busy image t)
  | leave {image : Image} {s t : State} {v : Value} (h : step image s = .returned v t) :
    Step (.busy image s) (.idle (t.session image))
  | fail {image : Image} {s t : State} {failure : Failure} (h : step image s = .failed failure t) :
    Step (.busy image s) (.idle (t.session image))

abbrev Reaches : Moment → Moment → Prop := Relation.ReflTransGen Step

/-- What holds at every moment. -/
structure Sound (now : Moment) : Prop where
  canonical : now.IsCanonical
  depth : now.depth = now.active

variable {now later : Moment}

theorem ground_of_ended {image : Image} {s : State} (h : (Moment.busy image s).Sound) {depth : Int}
    (hs : (Machine.step image s).ground = depth) : depth = 0 := by
  have hd : s.depth = (s.callers.length + 1 : Nat) := h.depth
  rw [← hs, step_ground]
  change s.depth - (s.callers.length + 1) = 0
  omega

theorem Sound.step (h : now.Sound) (hn : Step now later) :
    later.Sound ∧ now.memory.Kept later.memory := by
  cases hn with
  | @enter session F hF hps hd =>
    have hd : session.depth = 0 := h.depth
    have hF : (Frame.enter F []).IsCanonical := isCanonical_enter F (List.forall_mem_nil _)
    refine ⟨⟨⟨h.canonical, hF, List.forall_mem_nil _⟩, ?_⟩, .refl _⟩
    simp [Moment.depth, active, Session.entry, hd]
  | @run image s t hs =>
    have hc : s.IsCanonical := h.canonical
    have hd : s.depth = (s.callers.length + 1 : Nat) := h.depth
    obtain ⟨ht, hk⟩ : Next.Keeps s.memory (.running t) := hs ▸ hc.step
    have hg : t.unwind.depth = s.unwind.depth :=
      (congrArg Next.ground hs).symm.trans (step_ground _ _)
    refine ⟨⟨ht, ?_⟩, hk⟩
    simp only [State.unwind] at hg
    simp only [Moment.depth, active]
    omega
  | @leave image s t v hs =>
    have hc : s.IsCanonical := h.canonical
    obtain ⟨ht, hk⟩ : Next.Keeps s.memory (.returned v t) := hs ▸ hc.step
    exact ⟨⟨ht.memory, ground_of_ended h (congrArg Next.ground hs)⟩, hk⟩
  | @fail image s t failure hs =>
    have hc : s.IsCanonical := h.canonical
    obtain ⟨ht, hk⟩ : Next.Keeps s.memory (.failed failure t) := hs ▸ hc.step
    exact ⟨⟨ht.memory, ground_of_ended h (congrArg Next.ground hs)⟩, hk⟩

theorem Sound.reaches (h : now.Sound) (hr : Reaches now later) :
    later.Sound ∧ now.memory.Kept later.memory := by
  induction hr with
  | refl => exact ⟨h, .refl _⟩
  | tail _ hn ih =>
    obtain ⟨hs, hk⟩ := ih
    obtain ⟨hs', hk'⟩ := hs.step hn
    exact ⟨hs', hk.trans hk'⟩

theorem run_reaches {image : Image} {fuel : Nat} {s : State} {ended : Ended}
    (h : run image fuel s = some ended) : Reaches (.busy image s) (.idle ended.session) := by
  induction fuel generalizing s with
  | zero => cases h
  | succ fuel ih =>
    rw [run] at h
    cases hst : Machine.step image s with
    | running t =>
      rw [hst] at h
      exact .head (.run hst) (ih h)
    | returned v t =>
      rw [hst] at h
      cases h
      exact .single (.leave hst)
    | failed failure t =>
      rw [hst] at h
      cases h
      exact .single (.fail hst)

theorem main_reaches_idle {session : Session} {fuel : Nat} {ended : Ended}
    (h : session.main fuel = some ended) : Reaches (.idle session) (.idle ended.session) := by
  cases hF : session.image.function? (ascii "main") with
  | none =>
    rw [main_eq_noMain hF] at h
    cases h
    exact .refl
  | some F =>
    by_cases hps : F.params = []
    · by_cases hd : session.depth < session.image.maxDepth
      · rw [main_eq_run hF hps hd] at h
        exact .head (.enter hF hps hd) (run_reaches h)
      · rw [main_eq_depthLimit hF hps hd] at h
        cases h
        exact .refl
    · rw [main_eq_takesParameters hF hps] at h
      cases h
      exact .refl

end Moment

section Loading

variable {image : Image} {memory : Memory} {globals : List Global}

/-- Every global has a block with a cell for each scalar of its type. -/
def Memory.Houses (memory : Memory) (globals : List Global) : Prop :=
  ∀ (b : Nat) (g : Global), globals[b]? = some g → ∃ block, memory[b]? = some block ∧
    block.isConst = g.isConst ∧ block.cells.size = (layout g.type).length

theorem globalBlock_gives {g : Global} {block : Block} (h : globalBlock g = .ok block) :
    block.isConst = g.isConst ∧ block.cells = (layout g.type).toArray := by
  unfold globalBlock Block.fresh at h
  simp only at h
  split at h
  · cases h
  · cases h
    exact ⟨rfl, rfl⟩

theorem mapM_gives {blocks : List Block} (h : globals.mapM globalBlock = .ok blocks) :
    List.Forall₂ (fun g block ↦ globalBlock g = .ok block) globals blocks := by
  induction globals generalizing blocks with
  | nil =>
    cases h
    exact .nil
  | cons g globals ih =>
    rw [List.mapM_cons] at h
    cases hg : globalBlock g with
    | error failure => simp [hg, bind, Except.bind] at h
    | ok block =>
      cases hr : globals.mapM globalBlock with
      | error failure => simp [hg, hr, bind, Except.bind] at h
      | ok rest =>
        simp only [hg, hr, bind, Except.bind, pure, Except.pure] at h
        cases h
        exact .cons hg (ih hr)

theorem flatten_scalar (c : Constant) :
    Gives (fun vs ↦ ∀ v ∈ vs, v.IsCanonical) ((image.constant c).map fun v ↦ [v]) := by
  intro vs hvs
  cases hc : image.constant c with
  | error fault => simp [hc, Except.map] at hvs
  | ok v =>
    rw [hc] at hvs
    cases hvs
    exact List.forall_mem_singleton.2 (constant_canonical image c v hc)

mutual

theorem flatten_canonical : ∀ c : Constant,
    Gives (fun vs ↦ ∀ v ∈ vs, v.IsCanonical) (flatten image c)
  | .array elem values => by
    rw [flatten]
    exact flattenAll_canonical values
  | .int _ _ | .float _ _ | .global _ _ | .gep _ _ _ _ | .zext _ _ => by
    rw [flatten]
    · exact flatten_scalar _
    all_goals nofun

theorem flattenAll_canonical : ∀ cs : List Constant,
    Gives (fun vs ↦ ∀ v ∈ vs, v.IsCanonical) (flattenAll image cs)
  | [] => by
    rw [flattenAll]
    exact .ok (List.forall_mem_nil _)
  | c :: cs => by
    rw [flattenAll]
    exact (flatten_canonical c).bind fun vs hvs ↦ (flattenAll_canonical cs).bind fun rest hrest ↦
      .ok (List.forall_mem_append.2 ⟨hvs, hrest⟩)

end

theorem initialise_keeps {g : Global} {memory' : Memory} (hm : memory.IsCanonical)
    (hh : memory.Houses globals) (h : initialise image memory g = .ok memory') :
    memory'.IsCanonical ∧ memory'.Houses globals := by
  unfold initialise at h
  simp only at h
  split at h
  · cases h
  · rename_i values hvs
    split at h
    · cases h
      exact ⟨hm, hh⟩
    · rename_i b _
      split at h
      · cases h
      · rename_i hsize
        cases h
        refine ⟨fun i block hi ↦ ?_, fun i g' hi ↦ ?_⟩
        · rw [Array.getElem?_modify] at hi
          split at hi
          · obtain ⟨old, ho, rfl⟩ := Option.map_eq_some_iff.1 hi
            exact flatten_canonical g.value values hvs
          · exact hm i block hi
        · obtain ⟨block, hb, hc, hs⟩ := hh i g' hi
          rw [Array.getElem?_modify]
          split
          · rename_i he
            subst he
            rw [hb]
            refine ⟨_, rfl, hc, ?_⟩
            simp only [hb, Option.map_some, Option.getD_some, ne_eq, not_not] at hsize
            rw [← hs, ← hsize, List.size_toArray]
          · exact ⟨block, hb, hc, hs⟩

theorem foldlM_keeps {rest : List Global} {memory' : Memory} (hm : memory.IsCanonical)
    (hh : memory.Houses globals) (h : rest.foldlM (initialise image) memory = .ok memory') :
    memory'.IsCanonical ∧ memory'.Houses globals := by
  induction rest generalizing memory with
  | nil =>
    cases h
    exact ⟨hm, hh⟩
  | cons g rest ih =>
    rw [List.foldlM_cons] at h
    cases hg : initialise image memory g with
    | error failure => simp [hg, bind, Except.bind] at h
    | ok next =>
      rw [hg] at h
      obtain ⟨hm', hh'⟩ := initialise_keeps hm hh hg
      exact ih hm' hh' h

theorem load_eq_ok {m : Module} {limits : Limits} {loaded : Session}
    (h : Session.load m limits = .ok loaded) :
    ∃ blocks memory, m.globals.mapM globalBlock = .ok blocks ∧
      m.globals.foldlM (initialise (.ofModule m limits)) blocks.toArray = .ok memory ∧
      loaded = ⟨.ofModule m limits, memory, 0, 0⟩ := by
  have he : Session.load m limits = (m.globals.mapM globalBlock).bind fun blocks ↦
      (m.globals.foldlM (initialise (.ofModule m limits)) blocks.toArray).bind fun memory ↦
        .ok ⟨.ofModule m limits, memory, 0, 0⟩ := rfl
  rw [he] at h
  cases hb : m.globals.mapM globalBlock with
  | error failure => simp [hb, Except.bind] at h
  | ok blocks =>
    rw [hb] at h
    cases hf : m.globals.foldlM (initialise (.ofModule m limits)) blocks.toArray with
    | error failure => simp [hf, Except.bind] at h
    | ok memory =>
      simp only [hf, Except.bind, Except.ok.injEq] at h
      exact ⟨blocks, memory, rfl, hf, h.symm⟩

theorem load_keeps {m : Module} {limits : Limits} {loaded : Session}
    (h : Session.load m limits = .ok loaded) :
    loaded.memory.IsCanonical ∧ loaded.memory.Houses m.globals := by
  obtain ⟨blocks, memory, hb, hf, rfl⟩ := load_eq_ok h
  have hg := mapM_gives hb
  have hm : Memory.IsCanonical blocks.toArray := by
    intro b block hi v hv
    rw [List.getElem?_toArray] at hi
    obtain ⟨g, -, he⟩ := forall₂_getElem? hg.flip hi
    rw [(globalBlock_gives he).2] at hv
    exact layout_canonical g.type v hv
  have hh : Memory.Houses blocks.toArray m.globals := by
    intro b g hi
    obtain ⟨block, hblock, he⟩ := forall₂_getElem? hg hi
    obtain ⟨hc, hcells⟩ := globalBlock_gives he
    refine ⟨block, by rwa [List.getElem?_toArray], hc, ?_⟩
    rw [hcells, List.size_toArray]
  exact foldlM_keeps hm hh hf

end Loading

/-- From the loading of any module on, at every moment of its session all integers are canonical,
every block is kept to all later moments, and the depth is the number of active functions, so that
it is zero when `main` is not running. The session that a call of `main` leaves behind is such a
moment again. -/
theorem session_keeps_invariants {m : Module} {limits : Limits} {loaded : Session}
    (hl : Session.load m limits = .ok loaded) :
    loaded.memory.Houses m.globals ∧
      ∀ now, Moment.Reaches (.idle loaded) now →
        now.IsCanonical ∧ now.depth = now.active ∧
        (∀ later, Moment.Reaches now later → now.memory.Kept later.memory) ∧
        ∀ session, now = .idle session → session.depth = 0 ∧ ∀ fuel ended,
          session.main fuel = some ended → Moment.Reaches now (.idle ended.session) := by
  obtain ⟨hm, hh⟩ := load_keeps hl
  have hdepth : loaded.depth = 0 := by
    obtain ⟨_, _, -, -, rfl⟩ := load_eq_ok hl
    rfl
  refine ⟨hh, fun now hr ↦ ?_⟩
  have h₀ : (Moment.idle loaded).Sound := ⟨hm, hdepth⟩
  have hs := (h₀.reaches hr).1
  refine ⟨hs.canonical, hs.depth, fun later hr' ↦ (hs.reaches hr').2, ?_⟩
  rintro session rfl
  exact ⟨hs.depth, fun fuel ended he ↦ Moment.main_reaches_idle he⟩

/-- A module whose `main` keeps a sum that is too large for its width, and then stores to a
constant. -/
def overwriting : Module where
  id := ascii "overwriting"
  externals := []
  globals := [⟨ascii "c", .int 8, true, .int 8 100⟩]
  functions := [⟨ascii "main", [], .int 32,
    [.bin ⟨ascii "a", .int 8⟩ .add (.const (.int 8 100)) (.const (.int 8 100)),
      .alloca ⟨ascii "s", .ptr (.int 8)⟩ (.int 8),
      .store (.reg ⟨ascii "a", .int 8⟩) (.reg ⟨ascii "s", .ptr (.int 8)⟩),
      .store (.const (.int 8 1)) (.const (.global (ascii "c") (.ptr (.int 8))))]⟩]

theorem overwriting_keeps_constant : ∃ loaded ended failure,
    Session.load overwriting ⟨0, 0⟩ = .ok loaded ∧ loaded.main 4 = some ended ∧
      ended.status = .error failure ∧ loaded.memory.Houses overwriting.globals ∧
      (∃ block, ended.session.memory[0]? = some block ∧ block.cells = #[.int 8 100]) ∧
      (∃ block, ended.session.memory[1]? = some block ∧ block.cells = #[.int 8 (-56)]) ∧
      loaded.memory.Kept ended.session.memory ∧ ended.session.memory.IsCanonical := by
  let image : Image := .ofModule overwriting ⟨0, 0⟩
  have hload : Session.load overwriting ⟨0, 0⟩ =
      .ok ⟨image, #[⟨ascii "@c", true, #[.int 8 100]⟩], 0, 0⟩ := rfl
  have hmain : Session.main 4 ⟨image, #[⟨ascii "@c", true, #[.int 8 100]⟩], 0, 0⟩ =
      some ⟨.error ⟨_, .storeToConstant (ascii "@c")⟩, [],
        ⟨image, #[⟨ascii "@c", true, #[.int 8 100]⟩, ⟨ascii "%s", false, #[.int 8 (-56)]⟩],
          0, 0⟩⟩ :=
    rfl
  obtain ⟨hh, hall⟩ := session_keeps_invariants hload
  obtain ⟨-, -, hk, hr⟩ := hall _ .refl
  have hended := (hr _ rfl).2 4 _ hmain
  exact ⟨_, _, _, hload, hmain, rfl, hh, ⟨_, rfl, rfl⟩, ⟨_, rfl, rfl⟩, hk _ hended,
    (hall _ hended).1⟩

end PZero.Machine
